import Mathlib.Data.List.Induction
import Mathlib.Data.List.Nodup

/-! Lists by a relation between their entries: the element that dominates all others, found by a
running best and then verified; and lists in which every entry follows on what comes before it. -/
set_option autoImplicit false

namespace Dominance

section
variable {α : Type} (dominates : α → α → Bool)

def Wins (l : List α) (a : α) : Prop :=
  ∃ before after, l = before ++ a :: after ∧ ∀ b ∈ before ++ after, dominates a b = true

def runningBest : α × Nat → Nat → List α → α × Nat
  | best, _, [] => best
  | best, i, x :: xs => runningBest (if dominates x best.1 then (x, i) else best) (i+1) xs

def verify (best : α × Nat) : Nat → List α → Bool
  | _, [] => true
  | i, x :: xs => (i = best.2 || dominates best.1 x) && verify best (i+1) xs

def pick : List α → Option α
  | [] => none
  | a :: l =>
    let best := runningBest dominates (a, 0) 1 l
    if verify dominates best 0 (a :: l) then some best.1 else none

end

section
variable {α : Type} {dominates : α → α → Bool}

theorem verify_iff {best : α × Nat} {l : List α} {i : Nat} : verify dominates best i l = true ↔
    ∀ k b, l[k]? = some b → i+k = best.2 ∨ dominates best.1 b = true := by
  induction l generalizing i with
  | nil => simp [verify]
  | cons a l ih =>
    simp only [verify, Bool.and_eq_true, Bool.or_eq_true, decide_eq_true_eq, ih]
    constructor
    · rintro ⟨ha, hl⟩ k b hk
      cases k with
      | zero =>
        cases hk
        exact ha
      | succ k =>
        have := hl k b hk
        rwa [Nat.add_right_comm, Nat.add_assoc] at this
    · intro h
      refine ⟨h 0 a rfl, fun k b hk => ?_⟩
      have := h (k+1) b hk
      rwa [← Nat.add_assoc, Nat.add_right_comm] at this

theorem runningBest_append (best : α × Nat) (i : Nat) (l l' : List α) :
    runningBest dominates best i (l ++ l') =
      runningBest dominates (runningBest dominates best i l) (i+l.length) l' := by
  induction l generalizing best i with
  | nil => rfl
  | cons x l ih =>
    simp only [List.cons_append, runningBest, ih, List.length_cons]
    congr 1
    omega

variable (dominates) in
/-- The running best is the first one, or stands at its place in the rest. -/
theorem runningBest_spec (best : α × Nat) (i : Nat) (l : List α) :
    runningBest dominates best i l = best ∨
      ∃ k, (runningBest dominates best i l).2 = i+k ∧
        l[k]? = some (runningBest dominates best i l).1 := by
  induction l generalizing best i with
  | nil => exact .inl rfl
  | cons x l ih =>
    simp only [runningBest]
    rcases ih (if dominates x best.1 = true then (x, i) else best) (i+1) with h | ⟨k, hk, hl⟩
    · rw [h]
      split
      · exact .inr ⟨0, rfl, rfl⟩
      · exact .inl rfl
    · exact .inr ⟨k+1, by rw [hk]; omega, hl⟩

theorem runningBest_of_none {best : α × Nat} {l : List α}
    (h : ∀ x ∈ l, dominates x best.1 = false) (i : Nat) :
    runningBest dominates best i l = best := by
  induction l generalizing i with
  | nil => rfl
  | cons x l ih =>
    simp only [runningBest, h x List.mem_cons_self, Bool.false_eq_true, if_false]
    exact ih (fun y hy => h y (List.mem_cons_of_mem _ hy)) (i+1)

theorem wins_of_getElem? {l : List α} {k : Nat} {a : α} (hk : l[k]? = some a)
    (h : ∀ j b, l[j]? = some b → j = k ∨ dominates a b = true) : Wins dominates l a := by
  obtain ⟨hlt, rfl⟩ := List.getElem?_eq_some_iff.mp hk
  refine ⟨l.take k, l.drop (k+1), by simp, fun b hb => ?_⟩
  rcases List.mem_append.mp hb with hb | hb
  · obtain ⟨j, hj, rfl⟩ := List.mem_take_iff_getElem.mp hb
    refine (h j _ (List.getElem?_eq_getElem _)).resolve_left ?_
    omega
  · obtain ⟨j, hj, rfl⟩ := List.mem_drop_iff_getElem.mp hb
    refine (h _ _ (List.getElem?_eq_getElem _)).resolve_left ?_
    omega

theorem wins_of_pick {l : List α} {a : α} (h : pick dominates l = some a) :
    Wins dominates l a := by
  cases l with
  | nil => contradiction
  | cons x l =>
    simp only [pick, Option.ite_none_right_eq_some, Option.some.injEq] at h
    obtain ⟨hv, rfl⟩ := h
    rw [verify_iff] at hv
    have hplace : (x :: l)[(runningBest dominates (x, 0) 1 l).2]? =
        some (runningBest dominates (x, 0) 1 l).1 := by
      rcases runningBest_spec dominates (x, 0) 1 l with hb | ⟨k, hk, hl⟩
      · rw [hb]
        rfl
      · rw [hk, Nat.add_comm]
        exact hl
    exact wins_of_getElem? hplace fun j b hj => by simpa using hv j b hj

theorem runningBest_mem (x : α) (l : List α) :
    (runningBest dominates (x, 0) 1 l).1 ∈ x :: l := by
  rcases runningBest_spec dominates (x, 0) 1 l with hb | ⟨k, -, hl⟩
  · rw [hb]
    exact List.mem_cons_self
  · exact List.mem_cons_of_mem _ (List.mem_of_getElem? hl)

theorem runningBest_eq {x a : α} {l before after : List α} (hs : x :: l = before ++ a :: after)
    (hbefore : ∀ b ∈ before, dominates a b = true) (hafter : ∀ b ∈ after, dominates b a = false) :
    runningBest dominates (x, 0) 1 l = (a, before.length) := by
  cases before with
  | nil =>
    obtain ⟨rfl, rfl⟩ := List.cons.inj hs
    exact runningBest_of_none hafter 1
  | cons y before =>
    rw [List.cons_append] at hs
    obtain ⟨rfl, rfl⟩ := List.cons.inj hs
    have hbest : dominates a (runningBest dominates (x, 0) 1 before).1 = true :=
      hbefore _ (runningBest_mem x before)
    rw [runningBest_append, runningBest, hbest, if_pos rfl, runningBest_of_none hafter,
      List.length_cons, Nat.add_comm]

theorem verify_of_wins {a : α} {before after : List α}
    (h : ∀ b ∈ before ++ after, dominates a b = true) :
    verify dominates (a, before.length) 0 (before ++ a :: after) = true := by
  refine verify_iff.mpr fun j b hj => ?_
  rcases Nat.lt_trichotomy j before.length with hlt | heq | hgt
  · rw [List.getElem?_append_left hlt] at hj
    exact .inr (h b (List.mem_append_left _ (List.mem_of_getElem? hj)))
  · exact .inl (by omega)
  · rw [List.getElem?_append_right (by omega),
      show j-before.length = j-before.length-1+1 by omega, List.getElem?_cons_succ] at hj
    exact .inr (h b (List.mem_append_right _ (List.mem_of_getElem? hj)))

/-- One element's running best is verified exactly where an element wins. -/
theorem pick_iff (hasymm : ∀ a b, dominates a b = true → dominates b a = false) {l : List α}
    {a : α} : pick dominates l = some a ↔ Wins dominates l a := by
  refine ⟨wins_of_pick, ?_⟩
  rintro ⟨before, after, hs, hall⟩
  cases l with
  | nil => simp at hs
  | cons x l =>
    have hbest := runningBest_eq hs (fun b hb => hall b (List.mem_append_left _ hb))
      fun b hb => hasymm a b (hall b (List.mem_append_right _ hb))
    simp only [pick, hbest]
    rw [hs, verify_of_wins hall, if_pos rfl]

theorem Wins.perm {l l' : List α} {a : α} (h : Wins dominates l a) (hp : l.Perm l') :
    Wins dominates l' a := by
  obtain ⟨before, after, rfl, hall⟩ := h
  obtain ⟨before', after', rfl⟩ := List.append_of_mem (hp.mem_iff.mp (by simp : a ∈ _))
  refine ⟨before', after', rfl, fun b hb => hall b ?_⟩
  have hrest : (a :: (before ++ after)).Perm (a :: (before' ++ after')) :=
    (List.perm_middle.symm.trans hp).trans List.perm_middle
  exact (List.Perm.cons_inv hrest).mem_iff.mpr hb

theorem pick_perm (hasymm : ∀ a b, dominates a b = true → dominates b a = false) {l l' : List α}
    (hp : l.Perm l') : pick dominates l = pick dominates l' := by
  refine Option.ext fun a => ?_
  rw [pick_iff hasymm, pick_iff hasymm]
  exact ⟨fun h => h.perm hp, fun h => h.perm hp.symm⟩

end
end Dominance

namespace Order

/-- `P` holds of what comes before an entry and the entry. -/
def Follows {ι : Type} (P : List ι → ι → Prop) (l : List ι) : Prop :=
  ∀ s c t, l = s ++ c :: t → P s c

theorem Follows.nil {ι : Type} {P : List ι → ι → Prop} : Follows P [] := by
  intro s c t h
  simp at h

theorem Follows.append_singleton {ι : Type} {P : List ι → ι → Prop} {l : List ι} {c : ι}
    (h : Follows P l) (hc : P l c) : Follows P (l ++ [c]) := by
  intro s d t hs
  cases t using List.reverseRecOn with
  | nil =>
    obtain ⟨rfl, hd⟩ := List.append_inj' hs rfl
    cases hd
    exact hc
  | append_singleton t e =>
    have hs' : l ++ [c] = (s ++ d :: t) ++ [e] := by rw [hs]; simp
    exact h s d t (List.append_inj' hs' rfl).1

theorem Follows.not_mem {ι : Type} {P : List ι → ι → Prop} {l : List ι} (h : Follows P l)
    {B : ι → Prop} (hB : ∀ before c, B c → P before c → ∃ d ∈ before, B d) {c : ι} (hc : c ∈ l) :
    ¬ B c := by
  obtain ⟨s, t, hs⟩ := List.append_of_mem hc
  generalize hn : s.length = n
  induction n using Nat.strongRecOn generalizing s t c with
  | _ n ih =>
    intro hBc
    obtain ⟨d, hd, hBd⟩ := hB s c hBc (h s c t hs)
    obtain ⟨s', t', rfl⟩ := List.append_of_mem hd
    refine ih s'.length ?_ (c := d) ?_ s' (t' ++ c :: t) (by rw [hs]; simp) rfl hBd
    · rw [← hn]
      simp
    · rw [hs]
      simp

theorem Follows.mono {ι : Type} {P Q : List ι → ι → Prop} {l : List ι} (h : Follows P l)
    (hPQ : ∀ s c, P s c → Q s c) : Follows Q l :=
  fun s c t hs => hPQ s c (h s c t hs)

end Order
