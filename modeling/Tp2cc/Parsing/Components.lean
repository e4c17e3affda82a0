import Mathlib.Data.List.Basic
import Mathlib.Data.List.TakeWhile

/-! Where a text is cut: behind the longest stretch of symbols of a kind, at every separator, and at
the last symbol of a kind. -/
set_option autoImplicit false

namespace Parsing

section
variable {α : Type} {p : α → Bool} {front rest src m : List α}

theorem takeWhile_front (hf : ∀ a ∈ front, p a = true) (hr : ∀ a ∈ rest.head?, p a = false) :
    (front ++ rest).takeWhile p = front := by
  rw [List.takeWhile_append_of_pos hf]
  cases rest with
  | nil => simp
  | cons a rest => simp [hr a rfl]

theorem dropWhile_front (hf : ∀ a ∈ front, p a = true) (hr : ∀ a ∈ rest.head?, p a = false) :
    (front ++ rest).dropWhile p = rest := by
  rw [List.dropWhile_append_of_pos hf]
  cases rest with
  | nil => rfl
  | cons a rest => simp [hr a rfl]

theorem head_dropWhile (p : α → Bool) (src : List α) :
    ∀ a ∈ (src.dropWhile p).head?, p a = false := by
  intro a ha
  have hhead := List.head?_dropWhile_not p src
  rw [ha] at hhead
  exact hhead

theorem head_start (hm : m <+: src.dropWhile p) : ∀ a ∈ m.head?, p a = false := by
  intro a ha
  obtain ⟨behind, hbehind⟩ := hm
  apply head_dropWhile p src
  cases m with
  | nil => simp at ha
  | cons d m =>
    cases ha
    rw [← hbehind]
    rfl

theorem takeWhile_start (hm : m <+: src.dropWhile p) :
    (src.takeWhile p ++ m).takeWhile p = src.takeWhile p :=
  takeWhile_front (fun _ => List.mem_takeWhile_imp) (head_start hm)

theorem dropWhile_start (hm : m <+: src.dropWhile p) :
    (src.takeWhile p ++ m).dropWhile p = m :=
  dropWhile_front (fun _ => List.mem_takeWhile_imp) (head_start hm)

end

section
variable {α : Type} [DecidableEq α] {sep : α} {src front behind c : List α} {cs : List (List α)}

def components (sep : α) (src : List α) : List (List α) := (src.splitOn sep).filter (· ≠ [])

theorem components_nil (sep : α) : components sep [] = [] := rfl

theorem components_append (sep : α) (front behind : List α) :
    components sep (front ++ sep :: behind) = components sep front ++ components sep behind := by
  rw [components, List.splitOn_append_cons_self, List.filter_append]
  rfl

theorem components_sep (sep : α) (src : List α) : components sep (sep :: src) = components sep src :=
  components_append sep [] src

theorem components_block (hc : c ≠ []) (hsep : sep ∉ c) : components sep c = [c] := by
  rw [components, List.splitOn_eq_singleton hsep]
  simp [hc]

theorem components_front (h : ∀ a ∈ behind.head?, a = sep) :
    components sep (front ++ behind) = components sep front ++ components sep behind := by
  cases behind with
  | nil => simp [components_nil]
  | cons a behind =>
    have ha : a = sep := h a rfl
    rw [ha, components_append, components_sep]

theorem components_dropWhile (sep : α) (src : List α) :
    components sep (src.dropWhile (· = sep)) = components sep src := by
  induction src with
  | nil => rfl
  | cons a src ih =>
    by_cases ha : a = sep
    · simp [ha, ih, components_sep]
    · simp [ha]

theorem components_takeWhile (sep : α) (src : List α) :
    components sep src = components sep (src.takeWhile (· ≠ sep)) ++
      components sep (src.dropWhile (· ≠ sep)) := by
  have hhead : ∀ a ∈ (src.dropWhile (· ≠ sep)).head?, a = sep := by
    intro a ha
    have hfalse := List.head?_dropWhile_not (· ≠ sep) src
    rw [ha] at hfalse
    simpa using hfalse
  rw [← components_front hhead, List.takeWhile_append_dropWhile]

theorem mem_splitOn (h : c ∈ src.splitOn sep) : sep ∉ c ∧ ∀ a ∈ c, a ∈ src := by
  induction src generalizing c with
  | nil => simp_all
  | cons b src ih =>
    rw [List.splitOn_cons_eq_if_modifyHead] at h
    by_cases hb : b = sep
    · simp only [hb, beq_self_eq_true, if_true, List.mem_cons] at h
      cases h with
      | inl h => simp [h]
      | inr h =>
        obtain ⟨hsep, hmem⟩ := ih h
        exact ⟨hsep, fun a ha => List.mem_cons_of_mem b (hmem a ha)⟩
    · simp only [beq_iff_eq, hb, if_false] at h
      generalize hparts : src.splitOn sep = parts at h ih
      cases parts with
      | nil => simp at h
      | cons d parts =>
        simp only [List.modifyHead_cons, List.mem_cons] at h
        cases h with
        | inl h =>
          obtain ⟨hsep, hmem⟩ := ih List.mem_cons_self
          subst h
          constructor
          · simp [Ne.symm hb, hsep]
          · intro a ha
            cases List.mem_cons.mp ha with
            | inl ha => simp [ha]
            | inr ha => exact List.mem_cons_of_mem b (hmem a ha)
        | inr h =>
          obtain ⟨hsep, hmem⟩ := ih (List.mem_cons_of_mem d h)
          exact ⟨hsep, fun a ha => List.mem_cons_of_mem b (hmem a ha)⟩

theorem mem_components (h : c ∈ components sep src) : c ≠ [] ∧ sep ∉ c ∧ ∀ a ∈ c, a ∈ src := by
  obtain ⟨hmem, hc⟩ := List.mem_filter.mp h
  exact ⟨of_decide_eq_true hc, mem_splitOn hmem⟩

/-- Nonempty stretches are the components of what joins them. -/
theorem components_intercalate (h : ∀ c ∈ cs, c ≠ [] ∧ sep ∉ c) :
    components sep ([sep].intercalate cs) = cs := by
  cases cs with
  | nil => rfl
  | cons c cs =>
    rw [components, List.splitOn_intercalate sep (fun d hd => (h d hd).2) (List.cons_ne_nil c cs),
      List.filter_eq_self]
    intro d hd
    simp [(h d hd).1]

end

section
variable {α : Type} {p : α → Bool} {src front behind : List α} {a : α}

def findLastOf (p : α → Bool) : List α → Option Nat
  | [] => none
  | a :: src =>
    match findLastOf p src with
    | some i => some (i+1)
    | none => if p a then some 0 else none

theorem findLastOf_none (h : ∀ b ∈ src, p b = false) : findLastOf p src = none := by
  induction src with
  | nil => rfl
  | cons b src ih =>
    have hb := h b List.mem_cons_self
    have hsrc := ih fun c hc => h c (List.mem_cons_of_mem b hc)
    simp [findLastOf, hsrc, hb]

theorem findLastOf_append (ha : p a = true) (h : ∀ b ∈ behind, p b = false) :
    findLastOf p (front ++ a :: behind) = some front.length := by
  induction front with
  | nil => simp [findLastOf, findLastOf_none h, ha]
  | cons b front ih => simp [findLastOf, ih]

theorem findLastOf_cases (p : α → Bool) (src : List α) :
    (findLastOf p src = none ∧ ∀ b ∈ src, p b = false) ∨
      ∃ front a behind, src = front ++ a :: behind ∧ findLastOf p src = some front.length ∧
        p a = true ∧ ∀ b ∈ behind, p b = false := by
  induction src with
  | nil => exact .inl ⟨rfl, by simp⟩
  | cons c src ih =>
    cases ih with
    | inl h =>
      cases hc : p c with
      | false => exact .inl ⟨by simp [findLastOf, h.1, hc], by simpa [hc] using h.2⟩
      | true => exact .inr ⟨[], c, src, rfl, by simp [findLastOf, h.1, hc], hc, h.2⟩
    | inr h =>
      obtain ⟨front, a, behind, hsrc, hlast, ha, hbehind⟩ := h
      refine .inr ⟨c :: front, a, behind, by rw [hsrc]; rfl, ?_, ha, hbehind⟩
      simp [findLastOf, hlast]

end
end Parsing
