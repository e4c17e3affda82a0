import Mathlib.Algebra.Ring.Nat
import Mathlib.Data.List.Basic

/-! Layouts without gaps: fields one behind the other, and alternatives that share a place. -/
set_option autoImplicit false

namespace Machine

/-- What lies from some place on: a field and what follows it, or one of two alternatives. -/
inductive Layout (α : Type) where
  | nil
  | field (f : α) (rest : Layout α)
  | alt (first others : Layout α)

namespace Layout
variable {α β : Type} (size : α → Nat)

def fields (fs : List α) (rest : Layout α) : Layout α := fs.foldr .field rest

def total : Layout α → Nat
  | .nil => 0
  | .field f rest => size f + rest.total
  | .alt first others => max first.total others.total

def place : Layout α → Nat → List (α × Nat)
  | .nil, _ => []
  | .field f rest, start => (f,start) :: rest.place (start + size f)
  | .alt first others, start => first.place start ++ others.place start

/-- The fields that are there together, with their offsets, for every choice of alternatives. -/
def paths : Layout α → Nat → List (List (α × Nat))
  | .nil, _ => [[]]
  | .field f rest, start => (rest.paths (start + size f)).map ((f,start) :: ·)
  | .alt first others, start => first.paths start ++ others.paths start

def Contiguous : Nat → List (α × Nat) → Prop
  | _, [] => True
  | start, p :: ps => p.2 = start ∧ Contiguous (start + size p.1) ps

def extent (ps : List (α × Nat)) : Nat := (ps.map fun p => size p.1).sum

@[simp] theorem extent_nil : extent size [] = 0 := rfl

@[simp] theorem extent_cons (p : α × Nat) (ps : List (α × Nat)) :
    extent size (p :: ps) = size p.1 + extent size ps := by
  simp [extent]

variable {size} {l : Layout α} {start : Nat} {path : List (α × Nat)}

@[simp] theorem fields_nil : fields [] l = l := rfl

@[simp] theorem fields_cons (f : α) (fs : List α) : fields (f :: fs) l = .field f (fields fs l) := rfl

theorem place_fields (fs : List α) (l : Layout α) (start : Nat) :
    (fields fs l).place size start =
      (fields fs .nil).place size start ++ l.place size (start + (fs.map size).sum) := by
  induction fs generalizing start with
  | nil => rfl
  | cons f fs ih => simp [place, ih (start + size f), Nat.add_assoc]

theorem total_fields (fs : List α) (l : Layout α) :
    (fields fs l).total size = (fs.map size).sum + l.total size := by
  induction fs with
  | nil => simp
  | cons f fs ih => simp [total, ih, Nat.add_assoc]

theorem paths_ne_nil (l : Layout α) (start : Nat) : l.paths size start ≠ [] := by
  induction l generalizing start with
  | nil => simp [paths]
  | field f rest ih => simpa [paths] using ih _
  | alt first others ih₁ ih₂ => simp [paths, ih₁]

theorem mem_place {p : α × Nat} :
    p ∈ l.place size start ↔ ∃ path ∈ l.paths size start, p ∈ path := by
  induction l generalizing start with
  | nil => simp [place, paths]
  | field f rest ih =>
    simp only [place, paths, List.mem_cons, List.mem_map, ih]
    constructor
    · rintro (rfl | ⟨path, hpath, hp⟩)
      · obtain ⟨path, hpath⟩ : ∃ path, path ∈ rest.paths size (start + size f) :=
          List.exists_mem_of_ne_nil _ (paths_ne_nil rest _)
        exact ⟨_, ⟨path, hpath, rfl⟩, List.mem_cons_self ..⟩
      · exact ⟨_, ⟨path, hpath, rfl⟩, List.mem_cons_of_mem _ hp⟩
    · rintro ⟨-, ⟨path, hpath, rfl⟩, hp⟩
      obtain rfl | hp := List.mem_cons.mp hp
      · exact .inl rfl
      · exact .inr ⟨path, hpath, hp⟩
  | alt first others ih₁ ih₂ =>
    simp only [place, paths, List.mem_append, ih₁, ih₂, or_and_right, exists_or]

theorem paths_contiguous (h : path ∈ l.paths size start) : Contiguous size start path := by
  induction l generalizing start path with
  | nil =>
    obtain rfl := List.mem_singleton.mp h
    trivial
  | field f rest ih =>
    obtain ⟨tail, htail, rfl⟩ := List.mem_map.mp h
    exact ⟨rfl, ih htail⟩
  | alt first others ih₁ ih₂ =>
    obtain h | h := List.mem_append.mp h
    · exact ih₁ h
    · exact ih₂ h

theorem paths_extent_le (h : path ∈ l.paths size start) : extent size path ≤ l.total size := by
  induction l generalizing start path with
  | nil =>
    obtain rfl := List.mem_singleton.mp h
    exact Nat.le_refl 0
  | field f rest ih =>
    obtain ⟨tail, htail, rfl⟩ := List.mem_map.mp h
    rw [extent_cons, total]
    exact Nat.add_le_add_left (ih htail) _
  | alt first others ih₁ ih₂ =>
    obtain h | h := List.mem_append.mp h
    · exact Nat.le_trans (ih₁ h) (Nat.le_max_left ..)
    · exact Nat.le_trans (ih₂ h) (Nat.le_max_right ..)

theorem exists_path_extent (l : Layout α) (start : Nat) :
    ∃ path ∈ l.paths size start, extent size path = l.total size := by
  induction l generalizing start with
  | nil => exact ⟨[], List.mem_singleton.mpr rfl, rfl⟩
  | field f rest ih =>
    obtain ⟨tail, htail, hextent⟩ := ih (start + size f)
    exact ⟨_, List.mem_map.mpr ⟨tail, htail, rfl⟩, by rw [extent_cons, hextent, total]⟩
  | alt first others ih₁ ih₂ =>
    rcases Nat.le_total (first.total size) (others.total size) with hle | hle
    · obtain ⟨path, hpath, hextent⟩ := ih₂ start
      exact ⟨path, List.mem_append_right _ hpath, by rw [hextent, total, Nat.max_eq_right hle]⟩
    · obtain ⟨path, hpath, hextent⟩ := ih₁ start
      exact ⟨path, List.mem_append_left _ hpath, by rw [hextent, total, Nat.max_eq_left hle]⟩

theorem Contiguous.offset {pre post : List (α × Nat)} {p : α × Nat}
    (h : Contiguous size start (pre ++ p :: post)) : p.2 = start + extent size pre := by
  induction pre generalizing start with
  | nil => exact h.1
  | cons q pre ih =>
    rw [ih h.2, extent_cons, Nat.add_assoc]

theorem Contiguous.bounds (h : Contiguous size start path) :
    ∀ p ∈ path, start ≤ p.2 ∧ p.2 + size p.1 ≤ start + extent size path := by
  intro p hp
  obtain ⟨pre, post, rfl⟩ := List.append_of_mem hp
  have hoffset := h.offset
  have hextent : extent size (pre ++ p :: post) =
      extent size pre + (size p.1 + extent size post) := by
    simp [extent]
  omega

/-- No field begins before the ones in front of it end. -/
theorem Contiguous.disjoint (h : Contiguous size start path) :
    path.Pairwise fun p q => p.2 + size p.1 ≤ q.2 := by
  induction path generalizing start with
  | nil => exact .nil
  | cons p ps ih =>
    refine .cons (fun q hq => ?_) (ih h.2)
    rw [h.1]
    exact (h.2.bounds q hq).1

theorem same_start {pre₁ pre₂ post₁ post₂ : List (α × Nat)} {p q : α × Nat}
    (h₁ : pre₁ ++ p :: post₁ ∈ l.paths size start) (h₂ : pre₂ ++ q :: post₂ ∈ l.paths size start)
    (hpre : pre₁.map (·.1) = pre₂.map (·.1)) : p.2 = q.2 := by
  have hextent : extent size pre₁ = extent size pre₂ := by
    have := congrArg (fun fs => (fs.map size).sum) hpre
    simpa [extent, Function.comp_def] using this
  rw [(paths_contiguous h₁).offset, (paths_contiguous h₂).offset, hextent]

end Layout
end Machine
