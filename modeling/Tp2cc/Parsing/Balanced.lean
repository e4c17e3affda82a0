import Mathlib.Data.List.Basic

set_option autoImplicit false

namespace Parsing

section
variable {α : Type} (opening closing : α)

inductive Balanced : List α → Prop
  | nil : Balanced []
  | symbol {a : α} {t : List α} : a ≠ opening → a ≠ closing → Balanced t → Balanced (a :: t)
  | nest {inner t : List α} : Balanced inner → Balanced t →
      Balanced (opening :: (inner ++ closing :: t))

variable [DecidableEq α]

def behindClose : Nat → List α → Option (List α)
  | 0, l => some l
  | _+1, [] => none
  | depth+1, a :: l =>
    if a = opening then behindClose (depth+2) l
    else if a = closing then behindClose depth l
    else behindClose (depth+1) l

variable {opening closing} {l rest : List α}

theorem behindClose_balanced (hne : opening ≠ closing) {body : List α}
    (h : Balanced opening closing body) (depth : Nat) (l : List α) :
    behindClose opening closing (depth+1) (body ++ l) =
      behindClose opening closing (depth+1) l := by
  induction h generalizing depth l with
  | nil => rfl
  | symbol ho hc _ ih =>
    rw [List.cons_append, behindClose, if_neg ho, if_neg hc, ih]
  | @nest inner t _ _ ihinner iht =>
    rw [List.cons_append, behindClose, if_pos rfl, List.append_assoc, ihinner, List.cons_append,
      behindClose, if_neg (Ne.symm hne), if_pos rfl, iht]

theorem exists_balanced {depth : Nat}
    (h : behindClose opening closing (depth+1) l = some rest) :
    ∃ body l', Balanced opening closing body ∧ l = body ++ closing :: l' ∧
      behindClose opening closing depth l' = some rest := by
  induction hn : l.length using Nat.strongRecOn generalizing l depth with
  | _ n ih =>
    cases l with
    | nil => simp [behindClose] at h
    | cons a l =>
      subst hn
      simp only [behindClose] at h
      split at h
      · rename_i ho
        obtain ⟨inner, l₁, hinner, rfl, h₁⟩ := ih l.length (by simp) h rfl
        obtain ⟨body, l₂, hbody, rfl, h₂⟩ := ih l₁.length (by simp; omega) h₁ rfl
        exact ⟨_, l₂, .nest hinner hbody, by simp [ho], h₂⟩
      · rename_i ho
        split at h
        · rename_i hc
          exact ⟨[], l, .nil, by simp [hc], h⟩
        · rename_i hc
          obtain ⟨body, l₁, hbody, rfl, h₁⟩ := ih l.length (by simp) h rfl
          exact ⟨a :: body, l₁, .symbol ho hc hbody, by simp, h₁⟩

theorem behindClose_iff (hne : opening ≠ closing) :
    behindClose opening closing 1 l = some rest ↔
      ∃ body, Balanced opening closing body ∧ l = body ++ closing :: rest := by
  constructor
  · intro h
    obtain ⟨body, l', hbody, hl, h'⟩ := exists_balanced h
    simp only [behindClose, Option.some.injEq] at h'
    subst h'
    exact ⟨body, hbody, hl⟩
  · rintro ⟨body, hbody, rfl⟩
    rw [behindClose_balanced hne hbody 0, behindClose, if_neg (Ne.symm hne), if_pos rfl,
      behindClose]

end
end Parsing
