import Mathlib.Data.Finset.BooleanAlgebra
import Mathlib.Data.Fintype.Basic
import Mathlib.Data.Fintype.Card
import Mathlib.Data.List.Basic
import Mathlib.Logic.Function.Iterate

/-! Walks along a partial function, which may run in a circle. -/
set_option autoImplicit false

namespace Graph
variable {α β σ ρ : Type}

section
variable (parent : α → Option α)

def link : Nat → α → Option α
  | 0, a => some a
  | n+1, a => (link n a).bind parent

/-- `path` is the first steps from `a`, none of them twice. -/
structure Walked (a : α) (path : List α) : Prop where
  nodup : path.Nodup
  step : ∀ i < path.length, link parent i a = path[i]?

/-- The walk can not go on without a repetition. -/
structure Complete (a : α) (path : List α) : Prop extends Walked parent a path where
  stops : ∀ b, link parent path.length a = some b → b ∈ path

end

/-- What a loop over a path gives: `body` gives the result or the next state, and `exit` the result
behind the path. -/
def along (body : σ → α → ρ ⊕ σ) (exit : σ → ρ) (s : σ) : List α → ρ
  | [] => exit s
  | a :: path =>
    match body s a with
    | .inl r => r
    | .inr s' => along body exit s' path

def searchBody (found : α → Option β) (out : σ → β → ρ) (next : σ → σ) (s : σ) (a : α) : ρ ⊕ σ :=
  match found a with
  | some b => .inl (out s b)
  | none => .inr (next s)

def Nearest (parent : α → Option α) (a : α) (found : α → Option β) (out : Nat → β → ρ)
    (default r : ρ) : Prop :=
  (r = default ∧ ∀ n c, link parent n a = some c → found c = none) ∨
    ∃ n c b, link parent n a = some c ∧ found c = some b ∧ r = out n b ∧
      ∀ k < n, ∀ c', link parent k a = some c' → found c' = none

section
variable {parent : α → Option α} {a : α} {path : List α}

theorem link_add (m n : Nat) (a : α) :
    link parent (m+n) a = (link parent m a).bind (link parent n) := by
  induction n with
  | zero => simp [link]
  | succ n ih => simp [link, ih, Option.bind_assoc]

theorem Walked.nil (a : α) : Walked parent a [] := ⟨List.nodup_nil, by simp⟩

theorem Walked.snoc {b : α} (h : Walked parent a path) (hb : link parent path.length a = some b)
    (hnew : b ∉ path) : Walked parent a (path ++ [b]) where
  nodup := by
    rw [List.nodup_append]
    refine ⟨h.nodup, List.nodup_singleton b, ?_⟩
    intro c hc c' hc' heq
    rw [heq, List.mem_singleton.mp hc'] at hc
    exact hnew hc
  step i hi := by
    rw [List.length_append, List.length_singleton] at hi
    cases Nat.lt_succ_iff_lt_or_eq.mp hi with
    | inl hlt => rw [List.getElem?_append_left hlt, h.step i hlt]
    | inr heq =>
      rw [heq, hb]
      simp

/-- What is reached at all is reached within the path, by induction on the number of steps: those
behind the path repeat shorter ones. -/
theorem Complete.reaches (h : Complete parent a path) {n : Nat} {c : α}
    (hc : link parent n a = some c) :
    ∃ i ≤ n, i < path.length ∧ link parent i a = some c := by
  induction n using Nat.strong_induction_on with
  | _ n ih =>
    by_cases hn : n < path.length
    · exact ⟨n, Nat.le_refl n, hn, hc⟩
    · obtain ⟨m, rfl⟩ : ∃ m, n = path.length+m := ⟨n-path.length, by omega⟩
      rw [link_add] at hc
      cases hb : link parent path.length a with
      | none => simp [hb] at hc
      | some b =>
        obtain ⟨j, hj, hjb⟩ := List.mem_iff_getElem.mp (h.stops b hb)
        have hlink : link parent j a = some b := by
          rw [h.step j hj, List.getElem?_eq_getElem hj, hjb]
        have hshort : link parent (j+m) a = some c := by
          rw [link_add, hlink, ← hb]
          exact hc
        obtain ⟨i, hi, hlt, hic⟩ := ih (j+m) (by omega) hshort
        exact ⟨i, by omega, hlt, hic⟩

theorem Complete.mem_iff (h : Complete parent a path) (c : α) :
    c ∈ path ↔ ∃ n, link parent n a = some c := by
  constructor
  case mp =>
    intro hc
    obtain ⟨i, hi, hic⟩ := List.mem_iff_getElem.mp hc
    exact ⟨i, by rw [h.step i hi, List.getElem?_eq_getElem hi, hic]⟩
  case mpr =>
    rintro ⟨n, hn⟩
    obtain ⟨i, -, hi, hic⟩ := h.reaches hn
    rw [h.step i hi] at hic
    exact List.mem_of_getElem? hic

variable {found : α → Option β} {out : σ → β → ρ} {next : σ → σ} {default : ρ}

theorem along_search (s : σ) (path : List α) :
    (along (searchBody found out next) (fun _ => default) s path = default ∧
      ∀ c ∈ path, found c = none) ∨
    ∃ n c b, path[n]? = some c ∧ found c = some b ∧
      along (searchBody found out next) (fun _ => default) s path = out (next^[n] s) b ∧
      ∀ k < n, ∀ c', path[k]? = some c' → found c' = none := by
  induction path generalizing s with
  | nil => simp [along]
  | cons a path ih =>
    cases ha : found a with
    | some b =>
      refine .inr ⟨0, a, b, rfl, ha, ?_, by simp⟩
      simp [along, searchBody, ha]
    | none =>
      have hstep : along (searchBody found out next) (fun _ => default) s (a :: path) =
          along (searchBody found out next) (fun _ => default) (next s) path := by
        simp [along, searchBody, ha]
      rw [hstep]
      cases ih (next s) with
      | inl h =>
        refine .inl ⟨h.1, ?_⟩
        simpa [ha] using h.2
      | inr h =>
        obtain ⟨n, c, b, hn, hb, hout, hbefore⟩ := h
        refine .inr ⟨n+1, c, b, by simpa using hn, hb, hout, ?_⟩
        intro k hk c' hc'
        cases k with
        | zero =>
          cases Option.some.inj hc'
          exact ha
        | succ k => exact hbefore k (by omega) c' (by simpa using hc')

theorem Complete.nearest (h : Complete parent a path) (s : σ) :
    Nearest parent a found (fun n => out (next^[n] s)) default
      (along (searchBody found out next) (fun _ => default) s path) := by
  cases along_search s path with
  | inl hnone =>
    refine .inl ⟨hnone.1, ?_⟩
    intro n c hc
    exact hnone.2 c ((h.mem_iff c).mpr ⟨n, hc⟩)
  | inr hsome =>
    obtain ⟨n, c, b, hn, hb, hout, hbefore⟩ := hsome
    have hlt : n < path.length := (List.getElem?_eq_some_iff.mp hn).1
    refine .inr ⟨n, c, b, by rw [h.step n hlt, hn], hb, hout, ?_⟩
    intro k hk c' hc'
    rw [h.step k (by omega)] at hc'
    exact hbefore k hk c' hc'

end

section
variable [Fintype α] [DecidableEq α]

theorem card_compl_insert_lt {a : α} {seen : Finset α} (h : a ∉ seen) :
    (insert a seen)ᶜ.card < seenᶜ.card := by
  apply Finset.card_lt_card
  rw [Finset.compl_insert]
  exact Finset.erase_ssubset (Finset.mem_compl.mpr h)

/-- The elements that a walk visits when it marks each and stops at a marked one. -/
def visits {α : Type} [Fintype α] [DecidableEq α] (parent : α → Option α) (seen : Finset α) :
    Option α → List α
  | none => []
  | some a => if _h : a ∈ seen then [] else a :: visits parent (insert a seen) (parent a)
termination_by seenᶜ.card
decreasing_by exact card_compl_insert_lt _h

variable {parent : α → Option α}

theorem Walked.visits_complete {a : α} {path : List α} (h : Walked parent a path)
    {seen : Finset α} (hseen : seen = path.toFinset) {c : Option α}
    (hc : c = link parent path.length a) :
    Complete parent a (path ++ visits parent seen c) := by
  cases c with
  | none =>
    rw [visits, List.append_nil]
    exact ⟨h, fun b hb => by rw [← hc] at hb; contradiction⟩
  | some b =>
    rw [visits]
    by_cases hb : b ∈ seen
    · rw [dif_pos hb, List.append_nil]
      refine ⟨h, ?_⟩
      intro b' hb'
      rw [← hc] at hb'
      cases Option.some.inj hb'
      rwa [hseen, List.mem_toFinset] at hb
    · have hnew : b ∉ path := by rwa [hseen, List.mem_toFinset] at hb
      have hnext : parent b = link parent (path ++ [b]).length a := by
        rw [List.length_append, List.length_singleton, link, ← hc]
        rfl
      have hmarked : insert b seen = (path ++ [b]).toFinset := by
        rw [hseen]
        ext
        simp
      have hrest := (h.snoc hc.symm hnew).visits_complete hmarked hnext
      rw [dif_neg hb]
      rwa [List.append_assoc] at hrest
termination_by seenᶜ.card
decreasing_by exact card_compl_insert_lt hb

theorem visits_complete (parent : α → Option α) (a : α) :
    Complete parent a (visits parent ∅ (some a)) :=
  (Walked.nil a).visits_complete rfl rfl

end

end Graph
