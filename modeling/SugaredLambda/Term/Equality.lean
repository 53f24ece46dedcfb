import SugaredLambda.Term.Basic

/-! Terms are compared by their structure. -/
namespace SugaredLambda.Term

mutual

def same : Term → Term → Bool
  | .abs ps b, .abs qs c => ps == qs && b.same c
  | .app ts, .app us => sameAll ts us
  | .var x, .var y => x == y
  | .nat m, .nat n => m == n
  | .list ts, .list us => sameAll ts us
  | .tuple ts, .tuple us => sameAll ts us
  | .char s, .char t => s == t
  | .str s, .str t => s == t
  | .word m, .word n => m == n
  | .record cs, .record ds => sameConstructors cs ds
  | .letIn bs b, .letIn cs c => sameBindings bs cs && b.same c
  | _, _ => false
termination_by structural first => first

def sameAll : List Term → List Term → Bool
  | [], [] => true
  | t :: ts, u :: us => t.same u && sameAll ts us
  | _, _ => false
termination_by structural first => first

def sameFields : List (Field Term) → List (Field Term) → Bool
  | [], [] => true
  | ⟨x, t⟩ :: xs, ⟨y, u⟩ :: ys => x == y && t.same u && sameFields xs ys
  | _, _ => false
termination_by structural first => first

def sameConstructors : List (Constructor Term) → List (Constructor Term) → Bool
  | [], [] => true
  | ⟨x, fs⟩ :: cs, ⟨y, gs⟩ :: ds => x == y && sameFields fs gs && sameConstructors cs ds
  | _, _ => false
termination_by structural first => first

def sameBindings : List (Binding Term) → List (Binding Term) → Bool
  | [], [] => true
  | ⟨x, ps, t⟩ :: bs, ⟨y, qs, u⟩ :: cs =>
    x == y && ps == qs && t.same u && sameBindings bs cs
  | _, _ => false
termination_by structural first => first

end

mutual

theorem same_iff : ∀ s t : Term, s.same t = true ↔ s = t
  | .abs ps b, t => by cases t <;> simp [same, same_iff b]
  | .app ts, t => by cases t <;> simp [same, sameAll_iff ts]
  | .var x, t => by cases t <;> simp [same]
  | .nat n, t => by cases t <;> simp [same]
  | .list ts, t => by cases t <;> simp [same, sameAll_iff ts]
  | .tuple ts, t => by cases t <;> simp [same, sameAll_iff ts]
  | .char c, t => by cases t <;> simp [same]
  | .str s, t => by cases t <;> simp [same]
  | .word n, t => by cases t <;> simp [same]
  | .record cs, t => by cases t <;> simp [same, sameConstructors_iff cs]
  | .letIn bs b, t => by cases t <;> simp [same, sameBindings_iff bs, same_iff b]

theorem sameAll_iff : ∀ ts us : List Term, sameAll ts us = true ↔ ts = us
  | [], us => by cases us <;> simp [sameAll]
  | t :: ts, us => by cases us <;> simp [sameAll, same_iff t, sameAll_iff ts]

theorem sameFields_iff : ∀ xs ys : List (Field Term), sameFields xs ys = true ↔ xs = ys
  | [], ys => by cases ys <;> simp [sameFields]
  | ⟨x, t⟩ :: xs, [] => by simp [sameFields]
  | ⟨x, t⟩ :: xs, ⟨y, u⟩ :: ys => by simp [sameFields, same_iff t, sameFields_iff xs]

theorem sameConstructors_iff :
    ∀ cs ds : List (Constructor Term), sameConstructors cs ds = true ↔ cs = ds
  | [], ds => by cases ds <;> simp [sameConstructors]
  | ⟨x, fs⟩ :: cs, [] => by simp [sameConstructors]
  | ⟨x, fs⟩ :: cs, ⟨y, gs⟩ :: ds => by
    simp [sameConstructors, sameFields_iff fs, sameConstructors_iff cs]

theorem sameBindings_iff : ∀ bs cs : List (Binding Term), sameBindings bs cs = true ↔ bs = cs
  | [], cs => by cases cs <;> simp [sameBindings]
  | ⟨x, ps, t⟩ :: bs, [] => by simp [sameBindings]
  | ⟨x, ps, t⟩ :: bs, ⟨y, qs, u⟩ :: cs => by
    simp [sameBindings, same_iff t, sameBindings_iff bs, and_assoc]

end

instance : DecidableEq Term := fun s t => decidable_of_iff _ (same_iff s t)

end SugaredLambda.Term
