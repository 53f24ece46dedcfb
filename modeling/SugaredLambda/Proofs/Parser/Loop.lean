import Mathlib.Logic.Function.Iterate
import SugaredLambda.Proofs.Parser.Pairing

/-! Repetition as a loop of rounds, each of which extends the chains found by the one before. -/
namespace SugaredLambda.Parser
variable {κ ω α : Type} [BEq κ] [Hashable κ]

/-- The loop between two rounds: the chains found, those among them from the last round, and
the progress. -/
structure Loop (κ ω : Type) [BEq κ] [Hashable κ] (α : Type) where
  found : Results (List α)
  frontier : Results (List α)
  progress : Progress κ ω

theorem run_chains_cons (p : Parser κ ω α) (text : Array Char) (rounds : Nat) (x : List α × Nat)
    (found : Results (List α)) (s : Progress κ ω) :
    (chains p text (rounds + 1) (x :: found)).run s =
      let longer := (extend p text (x :: found)).run s
      let more := (chains p text rounds longer.1).run longer.2
      (x :: found ++ more.1, more.2) := rfl

namespace Loop

def start (i : Nat) (s : Progress κ ω) : Loop κ ω α := ⟨[([], i)], [([], i)], s⟩

def round (p : Parser κ ω α) (text : Array Char) (l : Loop κ ω α) : Loop κ ω α :=
  let (grown, progress) := (extend p text l.frontier).run l.progress
  ⟨l.found ++ grown, grown, progress⟩

/-- A loop goes on for so many rounds and no longer, and this is what it comes to. -/
def EndsAfter (p : Parser κ ω α) (text : Array Char) (n : Nat) (l last : Loop κ ω α) : Prop :=
  (∀ m < n, ((round p text)^[m] l).frontier ≠ []) ∧ (round p text)^[n] l = last ∧ last.frontier = []

section
variable {p : Parser κ ω α} {text : Array Char} {n : Nat} {l last : Loop κ ω α}

theorem endsAfter_zero (h : l.frontier = []) : EndsAfter p text 0 l l :=
  ⟨fun _ hm => absurd hm (Nat.not_lt_zero _), rfl, h⟩

theorem endsAfter_succ (h : l.frontier ≠ []) (hrest : EndsAfter p text n (l.round p text) last) :
    EndsAfter p text (n + 1) l last := by
  obtain ⟨hmore, hlast, hnil⟩ := hrest
  refine ⟨fun m hm => ?_, hlast, hnil⟩
  cases m with
  | zero => exact h
  | succ m => exact hmore m (Nat.lt_of_succ_lt_succ hm)

end

section
variable {p : Parser κ ω α} {text : Array Char} {Related : Progress κ ω → Progress κ ω → Prop}
  {kept : Pairing.Kept Related} {low : Nat} (h : Follows (.same text Related kept) low 0 p p)
include h

/-- A round leaves less of the text, so that enough rounds are left for what the loop finds. -/
theorem exists_endsAfter (rounds : Nat) {k : Nat} (hk : low ≤ k) (hrounds : text.size < k + rounds)
    (before : Results (List α)) {frontier : Results (List α)}
    (hfrontier : ∀ x ∈ frontier, k ≤ x.2 ∧ x.2 ≤ text.size) {s : Progress κ ω} (hs : Related s s) :
    let run := (chains p text rounds frontier).run s
    ∃ n ≤ rounds, EndsAfter p text n ⟨before ++ frontier, frontier, s⟩ ⟨before ++ run.1,
      [], run.2⟩ := by
  induction rounds generalizing k before frontier s with
  | zero =>
    cases frontier with
    | nil => exact ⟨0, Nat.le_refl 0, endsAfter_zero rfl⟩
    | cons x frontier =>
      have := hfrontier x List.mem_cons_self
      omega
  | succ rounds ih =>
    cases frontier with
    | nil => exact ⟨0, Nat.zero_le _, endsAfter_zero rfl⟩
    | cons x frontier =>
      have hextend := (h.mono hk (Nat.le_refl 0)).extend hfrontier
      rw [show moved (Pairing.same text Related kept).offset (x :: frontier) = x :: frontier
        from moved_zero _] at hextend
      obtain ⟨-, hrelated, hgrown⟩ := hextend s s hs
      obtain ⟨n, hn, hends⟩ :=
        ih (k := k + 1) (by omega) (by omega) (before ++ x :: frontier) hgrown hrelated
      refine ⟨n + 1, Nat.succ_le_succ hn, endsAfter_succ (List.cons_ne_nil x frontier) ?_⟩
      simp only [run_chains_cons, ← List.append_assoc]
      exact hends

/-- The loop ends, after at most one round more than there are characters left, with what the
repetition reads. -/
theorem exists_rounds {i : Nat} (hlow : low ≤ i) (hi : i ≤ text.size) {s : Progress κ ω}
    (hs : Related s s) :
    let run := (many p text i).run s
    ∃ n ≤ text.size - i + 1, EndsAfter p text n (start i s) ⟨run.1, [], run.2⟩ :=
  exists_endsAfter h _ hlow (by omega) [] (by simpa using hi) hs

end

end Loop
end SugaredLambda.Parser
