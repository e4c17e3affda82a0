import Mathlib.Data.List.Basic
import Tp2cc.Parsing.Components

set_option autoImplicit false

namespace Parsing
variable {α σ : Type}

/-- The value and the rest of the text are determined in front of the rests that may follow. -/
def Readable (code : α → List σ) (follow : List σ → Prop) : Prop :=
  ∀ a b r s, follow r → follow s → code a ++ r = code b ++ s → a = b ∧ r = s

def OpensAt (sep : σ) (rest : List σ) : Prop := ∀ c ∈ rest.head?, c = sep

section
variable {code : α → List σ} {follow : List σ → Prop} {sep : σ} {r : List σ}

theorem opensAt_nil (sep : σ) : OpensAt sep [] := by simp [OpensAt]

theorem opensAt_cons (sep : σ) (r : List σ) : OpensAt sep (sep :: r) := by simp [OpensAt]

theorem Readable.injective (h : Readable code follow) (hnil : follow []) :
    Function.Injective code := by
  intro a b hab
  exact (h a b [] [] hnil hnil (by rw [hab])).1

theorem Readable.segment (hinj : Function.Injective code) (hsep : ∀ a, sep ∉ code a) :
    Readable code (OpensAt sep) := by
  classical
  intro a b r s hr hs h
  have hfront : ∀ c, ∀ d ∈ code c, decide (d ≠ sep) = true := by
    intro c d hd
    exact decide_eq_true fun heq => hsep c (heq ▸ hd)
  have hrest : ∀ rest, OpensAt sep rest → ∀ d ∈ rest.head?, decide (d ≠ sep) = false := by
    intro rest hopens d hd
    simp [hopens d hd]
  have htake := congrArg (List.takeWhile fun d => decide (d ≠ sep)) h
  rw [takeWhile_front (hfront a) (hrest r hr), takeWhile_front (hfront b) (hrest s hs)] at htake
  have hab := hinj htake
  subst hab
  exact ⟨rfl, List.append_cancel_left h⟩

theorem Readable.flatMap (h : Readable code fun _ => True)
    (hstop : ∀ a r, ¬ follow (code a ++ r)) : Readable (List.flatMap code) follow := by
  intro front
  induction front with
  | nil =>
    intro other r s hr hs heq
    cases other with
    | nil => exact ⟨rfl, heq⟩
    | cons b other =>
      simp only [List.flatMap_nil, List.nil_append, List.flatMap_cons, List.append_assoc] at heq
      exact absurd (heq ▸ hr) (hstop b _)
  | cons a front ih =>
    intro other r s hr hs heq
    cases other with
    | nil =>
      simp only [List.flatMap_nil, List.nil_append, List.flatMap_cons, List.append_assoc] at heq
      exact absurd (heq ▸ hs) (hstop a _)
    | cons b other =>
      simp only [List.flatMap_cons, List.append_assoc] at heq
      obtain ⟨hab, hrest⟩ := h a b _ _ trivial trivial heq
      obtain ⟨hfront, htail⟩ := ih other r s hr hs hrest
      exact ⟨by rw [hab, hfront], htail⟩

end
end Parsing
