import Mathlib.Data.Set.Card
import Mathlib.Logic.Relation
import Tp2cc.Graph.Comparison

/-! When the questions of a comparison return. -/
set_option autoImplicit false

namespace Graph

theorem acc_of_no_cycle {α : Type} [Finite α] {r : α → α → Prop} {p : α}
    (h : ∀ t, Relation.ReflTransGen r p t → ¬ Relation.TransGen r t t) :
    Acc (fun b a => r a b) p := by
  let Below (b a : {t // Relation.ReflTransGen r p t}) : Prop := Relation.TransGen r a.1 b.1
  have hirrefl : Std.Irrefl Below := ⟨fun a => h a.1 a.2⟩
  have htrans : IsTrans _ Below := ⟨fun a b c hab hbc => hbc.trans hab⟩
  have hwf : WellFounded Below := Finite.wellFounded_of_trans_of_irrefl _
  have hacc (a : {t // Relation.ReflTransGen r p t}) : Acc (fun b a => r a b) a.1 := by
    induction a using hwf.induction with
    | _ a ih => exact ⟨a.1, fun b hb => ih ⟨b, a.2.tail hb⟩ (.single hb)⟩
  exact hacc ⟨p, .refl⟩

namespace Comparison
variable {α : Type} (g : Comparison α)

/-- Asking `q`, while the answers to `H` are pending, comes to a fresh question, or with `none` to
something that never returns: everything asked before agrees as far as what is pending does. -/
inductive Comes : Set α → α → Option α → Prop where
  | opening {H : Set α} {q : α} : q ∉ H → g.atOnce q = none → (∀ n, g.items n q = none) →
      Comes H q none
  | check {H : Set α} {q : α} {l m : List (Item α)} {c : Nat → Option Bool} : q ∉ H →
      g.Opens q (l ++ .check c :: m) →
      (∀ i ∈ l, i.Holds (g.AlikeUnder (insert q H)) g.Alike) → (∀ n, c n = none) → Comes H q none
  | afresh {H : Set α} {q t : α} {l m : List (Item α)} : q ∉ H →
      g.Opens q (l ++ .afresh t :: m) →
      (∀ i ∈ l, i.Holds (g.AlikeUnder (insert q H)) g.Alike) → Comes H q (some t)
  | within {H : Set α} {q r : α} {e : Option α} {l m : List (Item α)} : q ∉ H →
      g.Opens q (l ++ .within r :: m) →
      (∀ i ∈ l, i.Holds (g.AlikeUnder (insert q H)) g.Alike) → Comes (insert q H) r e →
      Comes H q e

def Asks (p t : α) : Prop := g.Comes ∅ p (some t)

def Hangs (p : α) : Prop := g.Comes ∅ p none

/-- No fresh question leads back to itself, and none hangs. -/
def Settles (p : α) : Prop :=
  ∀ t, Relation.ReflTransGen g.Asks p t → ¬ g.Hangs t ∧ ¬ Relation.TransGen g.Asks t t

/-! Where a question comes to. -/

section
variable {g} {P : α → Prop} {H F : Set α} {q : α} {e : Option α}

theorem Comes.fresh (h : g.Comes H q e) : q ∉ H ∧ g.atOnce q = none := by
  cases h with
  | opening hq hnone _ => exact ⟨hq, hnone⟩
  | check hq ho _ _ => exact ⟨hq, ho.1⟩
  | afresh hq ho _ => exact ⟨hq, ho.1⟩
  | within hq ho _ _ => exact ⟨hq, ho.1⟩

theorem Comes.supported (h : g.Comes H q e) (hF : g.Supports P H F) (hq : q ∈ F) :
    ∃ t, e = some t ∧ P t := by
  induction h generalizing F with
  | opening hH hnone hn =>
    obtain ⟨l, ⟨-, n, hl⟩, -⟩ := hF _ hq
    rw [hn n] at hl
    cases hl
  | @check H q l m c hH ho _ hc =>
    obtain ⟨l', ho', hl⟩ := hF _ hq
    rw [ho'.unique ho] at hl
    obtain ⟨n, hn⟩ := hl (.check c) (by simp)
    rw [hc n] at hn
    cases hn
  | @afresh H q t l m hH ho _ =>
    obtain ⟨l', ho', hl⟩ := hF _ hq
    rw [ho'.unique ho] at hl
    exact ⟨t, rfl, hl (.afresh t) (by simp)⟩
  | @within H q r e l m hH ho _ hr ih =>
    obtain ⟨l', ho', hl⟩ := hF _ hq
    rw [ho'.unique ho] at hl
    refine ih (hF.pend q) ?_
    rcases hl (.within r) (by simp) with h | h | h
    · rw [hr.fresh.2] at h
      cases h
    · exact h
    · exact absurd (Set.mem_insert_of_mem q h) hr.fresh.1

variable [DecidableEq α]

theorem runAll_passes {n k : Nat} (hP : ∀ m ≤ n, ∀ t s, g.answer m [] t = some (true, s) → P t)
    {l m : List (Item α)} {seen : List α} {r : Bool × List α} (hc : g.Covers P H F seen)
    (ho : g.Opens q (l ++ m)) {l' : List (Item α)} (hl' : l' ⊆ l ++ m)
    (hl : ∀ i ∈ l', i.Holds (g.AlikeUnder H) g.Alike)
    (h : runAll (g.answer n) k (l' ++ m) seen = some r) :
    ∃ F' seen', F ⊆ F' ∧ g.Covers P H F' seen' ∧ runAll (g.answer n) k m seen' = some r := by
  induction l' generalizing F seen with
  | nil => exact ⟨F, seen, subset_refl F, hc, h⟩
  | cons i l' ih =>
    rcases runAll_cons h with ⟨s, hi, hrest⟩ | ⟨hi, hf⟩
    · obtain ⟨F', hsub, hc', -⟩ :=
        (answer_sound fun m hm => hP m hm.le).item (hP n n.le_refl) hc hi
      obtain ⟨F'', seen', hsub', hc'', hm⟩ := ih hc' (fun j hj => hl' (List.mem_cons_of_mem i hj))
        (fun j hj => hl j (List.mem_cons_of_mem i hj)) hrest
      exact ⟨F'', seen', hsub.trans hsub', hc'', hm⟩
    · obtain ⟨b, s⟩ := r
      cases hf
      refine absurd hi (item_not_false (fun r seen s hr hH => hr.not_false hH) ho ?_ ?_ hc.pending)
      · exact hl' List.mem_cons_self
      · exact hl i List.mem_cons_self

theorem Comes.returned {N n : Nat} (hn : n ≤ N) {seen : List α} {r : Bool × List α}
    (h : g.Comes H q e)
    (hc : g.Covers (fun t => ∃ m < N, ∃ s, g.answer m [] t = some (true, s)) H F seen)
    (hr : g.answer n seen q = some r) :
    ∃ t, e = some t ∧ ∃ m < N, ∃ r, g.answer m [] t = some r := by
  induction n generalizing H F seen q r with
  | zero => simp [answer] at hr
  | succ n ih =>
    rcases answer_cases hr with ⟨b, hb, -⟩ | ⟨-, hmem, -⟩ | ⟨hmem, m, l, hm, hl, ho, hrun⟩
    · rw [h.fresh.2] at hb
      cases hb
    · have hq := (hc.known q hmem).resolve_right h.fresh.1
      obtain ⟨t, he, m, hm, s, ht⟩ := h.supported hc.supports hq
      exact ⟨t, he, m, hm, _, ht⟩
    · cases hm
      have hP (m : Nat) (hm : m ≤ n) (t : α) (s : List α) (ht : g.answer m [] t = some (true, s)) :
          ∃ m < N, ∃ s, g.answer m [] t = some (true, s) := ⟨m, by omega, s, ht⟩
      have hc' := hc.start ho.1
      cases h with
      | opening _ _ hno =>
        rw [hno n] at hl
        cases hl
      | check hq ho' hpre hno =>
        cases ho.unique ho'
        obtain ⟨F', s, -, -, hrest⟩ :=
          runAll_passes hP hc' ho (List.subset_append_left _ _) hpre hrun
        rw [runAll, Option.bind_eq_some_iff] at hrest
        obtain ⟨r', hi, -⟩ := hrest
        simp [Item.run, hno n] at hi
      | @afresh _ _ t l m hq ho' hpre =>
        cases ho.unique ho'
        obtain ⟨F', s, -, -, hrest⟩ :=
          runAll_passes hP hc' ho (List.subset_append_left _ _) hpre hrun
        rw [runAll, Option.bind_eq_some_iff] at hrest
        obtain ⟨r', hi, -⟩ := hrest
        obtain ⟨r'', ht, -⟩ := Option.map_eq_some_iff.mp hi
        exact ⟨t, rfl, n, by omega, r'', ht⟩
      | @within _ _ t e l m hq ho' hpre ht =>
        cases ho.unique ho'
        obtain ⟨F', s, -, hcs, hrest⟩ :=
          runAll_passes hP hc' ho (List.subset_append_left _ _) hpre hrun
        rw [runAll, Option.bind_eq_some_iff] at hrest
        obtain ⟨r', hi, -⟩ := hrest
        exact ih (by omega) ht hcs hi

theorem exists_runAll {known : List α} (hask : ∀ t F seen, known ⊆ seen →
      g.Covers g.Alike H F seen →
      (∀ e, g.Comes H t e → ∃ u, e = some u ∧ ∃ b, g.Returns u b) →
      ∃ n r, g.answer n seen t = some r)
    {q : α} {H' : Set α} (hq : q ∉ H') (hH : H = insert q H')
    (hcomes : ∀ e, g.Comes H' q e → ∃ u, e = some u ∧ ∃ b, g.Returns u b)
    {l m : List (Item α)} (ho : g.Opens q (l ++ m))
    (hpre : ∀ i ∈ l, i.Holds (g.AlikeUnder H) g.Alike) {F : Set α} {seen : List α}
    (hknown : known ⊆ seen) (hc : g.Covers g.Alike H F seen) :
    ∃ n r, runAll (g.answer n) n m seen = some r := by
  subst hH
  induction m generalizing l F seen with
  | nil => exact ⟨0, (true,seen), rfl⟩
  | cons i m ih =>
    obtain ⟨n, ⟨b, s⟩, hi⟩ : ∃ n r, i.run (g.answer n) n seen = some r := by
      cases i with
      | check c =>
        by_cases hn : ∀ n, c n = none
        · obtain ⟨u, hu, -⟩ := hcomes none (.check hq ho hpre hn)
          cases hu
        · obtain ⟨n, hn⟩ := not_forall.mp hn
          obtain ⟨b, hb⟩ := Option.ne_none_iff_exists'.mp hn
          exact ⟨n, (b,seen), Option.map_eq_some_iff.mpr ⟨b, hb, rfl⟩⟩
      | within t =>
        exact hask t F seen hknown hc fun e he => hcomes e (.within hq ho hpre he)
      | afresh t =>
        obtain ⟨u, hu, b, n, s, hn⟩ := hcomes _ (.afresh hq ho hpre)
        cases hu
        exact ⟨n, (b,seen), Option.map_eq_some_iff.mpr ⟨_, hn, rfl⟩⟩
    cases b with
    | false => exact ⟨n, (false,s), by rw [runAll, hi]; rfl⟩
    | true =>
      have hsound : Sound g g.Alike (g.answer n) := answer_sound fun _ _ _ _ h => alike_of_answer h
      obtain ⟨F', -, hc', hholds⟩ := hsound.item (fun _ _ h => alike_of_answer h) hc hi
      have ho' : g.Opens q ((l ++ [i]) ++ m) := by rwa [List.append_assoc]
      have hgrows : seen ⊆ s := run_grows (fun _ _ _ h => answer_grows h) hi
      have hpre' (j : Item α) (hj : j ∈ l ++ [i]) :
          j.Holds (g.AlikeUnder (insert q H')) g.Alike := by
        rcases List.mem_append.mp hj with hj | hj
        · exact hpre j hj
        · cases List.mem_singleton.mp hj
          exact hholds.mono (fun t ht => ⟨F', hc'.supports, ht⟩) fun _ => id
      obtain ⟨k, r, hk⟩ := ih ho' (List.Subset.trans hknown hgrows) hpre' hc'
      have hcheck (c : Nat → Option Bool) (b : Bool) (a a' : Nat) (hle : a ≤ a')
          (hm : .check c ∈ i :: m) (hb : c a = some b) : c a' = some b := by
        obtain ⟨-, n', hn'⟩ := ho
        exact check_mono hn' (List.mem_append_right l hm) hle hb
      have hi' : i.run (g.answer (max n k)) (max n k) seen = some (true,s) :=
        run_mono (fun _ _ _ => answer_mono (Nat.le_max_left n k))
          (fun c b he => hcheck c b n _ (Nat.le_max_left n k) (he ▸ List.mem_cons_self)) hi
      have hm' : runAll (g.answer (max n k)) (max n k) m s = some r :=
        runAll_mono (fun _ _ _ => answer_mono (Nat.le_max_right n k))
          (fun c b hm => hcheck c b k _ (Nat.le_max_right n k) (List.mem_cons_of_mem i hm)) hk
      exact ⟨max n k, r, by rw [runAll, hi']; exact hm'⟩

/-- A question returns when all the fresh questions it comes to do: each round asks one more of
finitely many. -/
theorem exists_answer [Finite α] {seen : List α} (hc : g.Covers g.Alike H F seen)
    (hcomes : ∀ e, g.Comes H q e → ∃ u, e = some u ∧ ∃ b, g.Returns u b) :
    ∃ n r, g.answer n seen q = some r := by
  induction hk : {t | t ∉ seen}.ncard using Nat.strong_induction_on generalizing H F seen q with
  | _ k ih =>
    by_cases hnone : g.atOnce q = none
    · by_cases hmem : q ∈ seen
      · exact ⟨1, (true,seen), by simp [answer, hnone, hmem]⟩
      · have hq : q ∉ H := fun hH => hmem (hc.pending q hH).1
        by_cases hopen : ∀ n, g.items n q = none
        · obtain ⟨u, hu, -⟩ := hcomes none (.opening hq hnone hopen)
          cases hu
        · obtain ⟨n, hn⟩ := not_forall.mp hopen
          obtain ⟨l, hl⟩ := Option.ne_none_iff_exists'.mp hn
          have hless (s : List α) (hs : q :: seen ⊆ s) : {t | t ∉ s}.ncard < k := by
            rw [← hk]
            refine Set.ncard_lt_ncard ⟨fun t ht h => ht (hs (List.mem_cons_of_mem q h)), ?_⟩
            exact fun hsub => hsub (a := q) hmem (hs List.mem_cons_self)
          obtain ⟨k', r, hrun⟩ := exists_runAll (l := [])
            (fun t F s hs hc ht => ih _ (hless s hs) hc ht rfl) hq rfl hcomes
            (⟨hnone, n, hl⟩ : g.Opens q ([] ++ l)) (by simp) (List.Subset.refl _) (hc.start hnone)
          refine ⟨max n k'+1, r, ?_⟩
          rw [answer, hnone]
          simp only [hmem, if_false, items_mono (Nat.le_max_left n k') hl, Option.bind_some]
          refine runAll_mono (fun _ _ _ => answer_mono (Nat.le_max_right n k')) ?_ hrun
          exact fun c b hc => check_mono hl hc (Nat.le_max_right n k')
    · obtain ⟨b, hb⟩ := Option.ne_none_iff_exists'.mp hnone
      exact ⟨1, (b,seen), by simp [answer, hb]⟩

/-! Termination. -/

theorem asks_returned {p t : α} {n : Nat} {r : Bool × List α} (h : g.answer n [] p = some r)
    (ht : g.Asks p t) : ∃ m < n, ∃ r, g.answer m [] t = some r := by
  obtain ⟨u, hu, hm⟩ := Comes.returned (le_refl n) ht covers_nil h
  cases hu
  exact hm

theorem not_hangs {p : α} {n : Nat} {r : Bool × List α} (h : g.answer n [] p = some r) :
    ¬ g.Hangs p := by
  intro hh
  obtain ⟨u, hu, -⟩ := Comes.returned (le_refl n) hh covers_nil h
  cases hu

theorem reaches_returned {p t : α} {n : Nat} {r : Bool × List α}
    (h : g.answer n [] p = some r) (ht : Relation.ReflTransGen g.Asks p t) :
    ∃ m ≤ n, ∃ r, g.answer m [] t = some r := by
  induction ht with
  | refl => exact ⟨n, le_refl n, r, h⟩
  | tail _ hstep ih =>
    obtain ⟨m, hm, r', hr'⟩ := ih
    obtain ⟨k, hk, hu⟩ := asks_returned hr' hstep
    exact ⟨k, by omega, hu⟩

theorem not_cycle {t : α} {n : Nat} {r : Bool × List α} (h : g.answer n [] t = some r) :
    ¬ Relation.TransGen g.Asks t t := by
  intro hcycle
  induction n using Nat.strong_induction_on generalizing r with
  | _ n ih =>
    obtain ⟨u, hstep, hrest⟩ := Relation.TransGen.head'_iff.mp hcycle
    obtain ⟨m, hm, r', hr'⟩ := asks_returned h hstep
    obtain ⟨k, hk, r'', hr''⟩ := reaches_returned hr' hrest
    exact ih k (by omega) hr''

/-- Over finitely many questions, one returns exactly if no fresh question that it leads to leads
back to itself or hangs. -/
theorem returns_iff_settles [Finite α] (p : α) : (∃ b, g.Returns p b) ↔ g.Settles p := by
  constructor
  · rintro ⟨b, n, s, hn⟩ t ht
    obtain ⟨m, -, r, hr⟩ := reaches_returned hn ht
    exact ⟨not_hangs hr, not_cycle hr⟩
  · intro h
    have hacc := acc_of_no_cycle fun t ht => (h t ht).2
    induction hacc with
    | intro p _ ih =>
      have hcomes (e : Option α) (he : g.Comes ∅ p e) :
          ∃ u, e = some u ∧ ∃ b, g.Returns u b := by
        cases e with
        | none => exact absurd he (h p .refl).1
        | some u => exact ⟨u, rfl, ih u he fun t ht => h t (.head he ht)⟩
      obtain ⟨n, ⟨b, s⟩, hn⟩ := exists_answer covers_nil hcomes
      exact ⟨b, n, s, hn⟩

end

end Comparison
end Graph
