import Mathlib.Data.Set.Insert

/-! Comparisons that ask further comparisons in order: some take what was asked before for granted,
some start afresh. What their answers mean. -/
set_option autoImplicit false

namespace Graph

/-- What a comparison goes on to ask. -/
inductive Item (α : Type) where
  /-- A condition; `none` while the fuel is too low for it. -/
  | check (c : Nat → Option Bool)
  /-- A comparison that takes for granted what was asked before. -/
  | within (q : α)
  /-- A comparison that starts with nothing asked. -/
  | afresh (q : α)

def Item.test {α : Type} (b : Bool) : Item α := .check fun _ => some b

def Item.Holds {α : Type} (within afresh : α → Prop) : Item α → Prop
  | .check c => ∃ n, c n = some true
  | .within q => within q
  | .afresh q => afresh q

theorem Item.Holds.mono {α : Type} {W W' A A' : α → Prop} (hW : ∀ q, W q → W' q)
    (hA : ∀ q, A q → A' q) {i : Item α} (h : i.Holds W A) : i.Holds W' A' := by
  cases i with
  | check c => exact h
  | within q => exact hW q h
  | afresh q => exact hA q h

@[simp] theorem Item.test_holds {α : Type} {within afresh : α → Prop} {b : Bool} :
    (Item.test b).Holds within afresh ↔ b = true := by
  simp [Item.test, Item.Holds]

@[simp] theorem Item.check_holds {α : Type} {within afresh : α → Prop} {c : Nat → Option Bool} :
    (Item.check c).Holds within afresh ↔ ∃ n, c n = some true := Iff.rfl

@[simp] theorem Item.within_holds {α : Type} {within afresh : α → Prop} {q : α} :
    (Item.within q).Holds within afresh ↔ within q := Iff.rfl

@[simp] theorem Item.afresh_holds {α : Type} {within afresh : α → Prop} {q : α} :
    (Item.afresh q).Holds within afresh ↔ afresh q := Iff.rfl

/-- Questions, with the items each asks in order. -/
structure Comparison (α : Type) where
  /-- The answer to a question that asks nothing. -/
  atOnce : α → Option Bool
  items : Nat → α → Option (List (Item α))
  items_succ : ∀ {n q l}, items n q = some l → items (n+1) q = some l
  check_succ : ∀ {n q l c b m}, items n q = some l → .check c ∈ l → c m = some b →
    c (m+1) = some b

section
variable {α : Type}

def Item.run (ask : List α → α → Option (Bool × List α)) (n : Nat) (seen : List α) :
    Item α → Option (Bool × List α)
  | .check c => (c n).map fun b => (b, seen)
  | .within q => ask seen q
  | .afresh q => (ask [] q).map fun r => (r.1, seen)

def runAll (ask : List α → α → Option (Bool × List α)) (n : Nat) :
    List (Item α) → List α → Option (Bool × List α)
  | [], seen => some (true, seen)
  | i :: l, seen => (i.run ask n seen).bind fun r =>
    if r.1 then runAll ask n l r.2 else some (false, r.2)

@[simp] theorem runAll_nil (ask : List α → α → Option (Bool × List α)) (n : Nat)
    (seen : List α) : runAll ask n [] seen = some (true, seen) := rfl

@[simp] theorem runAll_test (ask : List α → α → Option (Bool × List α)) (n : Nat) (b : Bool)
    (l : List (Item α)) (seen : List α) : runAll ask n (.test b :: l) seen =
      if b then runAll ask n l seen else some (false, seen) := rfl

theorem runAll_check (ask : List α → α → Option (Bool × List α)) (n : Nat)
    (c : Nat → Option Bool) (l : List (Item α)) (seen : List α) :
    runAll ask n (.check c :: l) seen =
      (c n).bind fun b => if b then runAll ask n l seen else some (false, seen) := by
  rw [runAll, Item.run]
  cases c n <;> rfl

@[simp] theorem runAll_afresh (ask : List α → α → Option (Bool × List α)) (n : Nat) (q : α)
    (seen : List α) :
    runAll ask n [.afresh q] seen = (ask [] q).map fun r => (r.1, seen) := by
  rw [runAll, Item.run]
  cases ask [] q with
  | none => rfl
  | some r =>
    obtain ⟨b, s⟩ := r
    cases b <;> rfl

/-- The last comparison answers for all. -/
@[simp] theorem runAll_within (ask : List α → α → Option (Bool × List α)) (n : Nat) (q : α)
    (seen : List α) : runAll ask n [.within q] seen = ask seen q := by
  rw [runAll, Item.run]
  cases ask seen q with
  | none => rfl
  | some r =>
    obtain ⟨b, s⟩ := r
    cases b <;> rfl

/-- The answer, and the questions asked with it; `none` when the fuel runs out first. -/
def Comparison.answer [DecidableEq α] (g : Comparison α) :
    Nat → List α → α → Option (Bool × List α)
  | 0, _, _ => none
  | n+1, seen, q =>
    match g.atOnce q with
    | some b => some (b, seen)
    | none =>
      if q ∈ seen then some (true, seen)
      else (g.items n q).bind fun l => runAll (g.answer n) n l (q :: seen)

end

/-- On `X` a comparison returns, and its yes is an equivalence. -/
structure DecidesEquivalence {β : Type} (returns : β → β → Bool → Prop) (X : Set β) : Prop where
  total : ∀ a ∈ X, ∀ b ∈ X, ∃ same, returns a b same
  refl : ∀ a ∈ X, ∀ same, returns a a same → same = true
  symm : ∀ a ∈ X, ∀ b ∈ X, ∀ same same', returns a b same → returns b a same' → same = same'
  trans : ∀ a ∈ X, ∀ b ∈ X, ∀ c ∈ X, ∀ same, returns a b true → returns b c true →
    returns a c same → same = true

namespace Comparison
variable {α : Type} (g : Comparison α)

def Opens (q : α) (l : List (Item α)) : Prop := g.atOnce q = none ∧ ∃ n, g.items n q = some l

/-- Answered yes at once, in `F`, or assumed. -/
def Vouched (H F : Set α) (q : α) : Prop := g.atOnce q = some true ∨ q ∈ F ∨ q ∈ H

/-- The questions of `F` hold up each other, with `H` assumed and with `P` of the fresh ones. -/
def Supports (P : α → Prop) (H F : Set α) : Prop :=
  ∀ q ∈ F, ∃ l, g.Opens q l ∧ ∀ i ∈ l, i.Holds (g.Vouched H F) P

/-- No item that the question leads to fails, whatever it takes to find out. -/
def Alike (q : α) : Prop :=
  ∃ F : Set α, g.Supports (g.Vouched ∅ F) ∅ F ∧ g.Vouched ∅ F q

def AlikeUnder (H : Set α) (q : α) : Prop :=
  ∃ F : Set α, g.Supports g.Alike H F ∧ g.Vouched H F q

inductive Refuted : α → Prop where
  | atOnce {q : α} : g.atOnce q = some false → Refuted q
  | check {q : α} {l : List (Item α)} {c : Nat → Option Bool} {n : Nat} :
      g.Opens q l → .check c ∈ l → c n = some false → Refuted q
  | within {q r : α} {l : List (Item α)} : g.Opens q l → .within r ∈ l → Refuted r → Refuted q
  | afresh {q r : α} {l : List (Item α)} : g.Opens q l → .afresh r ∈ l → Refuted r → Refuted q

def Returns [DecidableEq α] (p : α) (b : Bool) : Prop := ∃ n s, g.answer n [] p = some (b,s)

/-! Fuel. -/

section
variable {g} {ask ask' : List α → α → Option (Bool × List α)}

theorem check_mono {n m k : Nat} {q : α} {l : List (Item α)} {c : Nat → Option Bool} {b : Bool}
    (h : g.items n q = some l) (hc : .check c ∈ l) (hle : m ≤ k) (hb : c m = some b) :
    c k = some b := by
  induction hle with
  | refl => exact hb
  | step _ ih => exact g.check_succ h hc ih

theorem items_mono {n m : Nat} {q : α} {l : List (Item α)} (hle : n ≤ m)
    (h : g.items n q = some l) : g.items m q = some l := by
  induction hle with
  | refl => exact h
  | step _ ih => exact g.items_succ ih

theorem Opens.unique {q : α} {l l' : List (Item α)} (h : g.Opens q l) (h' : g.Opens q l') :
    l = l' := by
  obtain ⟨-, n, hn⟩ := h
  obtain ⟨-, m, hm⟩ := h'
  have h₁ := items_mono (Nat.le_max_left n m) hn
  have h₂ := items_mono (Nat.le_max_right n m) hm
  exact Option.some.inj (h₁.symm.trans h₂)

theorem Opens.check_unique {q : α} {l : List (Item α)} {c : Nat → Option Bool} {n m : Nat}
    {b b' : Bool} (h : g.Opens q l) (hc : .check c ∈ l) (hn : c n = some b)
    (hm : c m = some b') : b = b' := by
  obtain ⟨-, k, hk⟩ := h
  have h₁ := check_mono hk hc (Nat.le_max_left n m) hn
  have h₂ := check_mono hk hc (Nat.le_max_right n m) hm
  exact Option.some.inj (h₁.symm.trans h₂)

theorem run_mono {n m : Nat} {i : Item α} {seen : List α} {r : Bool × List α}
    (hask : ∀ seen q r, ask seen q = some r → ask' seen q = some r)
    (hcheck : ∀ c b, i = .check c → c n = some b → c m = some b)
    (h : i.run ask n seen = some r) : i.run ask' m seen = some r := by
  cases i with
  | check c =>
    obtain ⟨b, hb, he⟩ := Option.map_eq_some_iff.mp h
    exact Option.map_eq_some_iff.mpr ⟨b, hcheck c b rfl hb, he⟩
  | within q => exact hask _ _ _ h
  | afresh q =>
    obtain ⟨r', hr, he⟩ := Option.map_eq_some_iff.mp h
    exact Option.map_eq_some_iff.mpr ⟨r', hask _ _ _ hr, he⟩

theorem runAll_mono {n m : Nat} {l : List (Item α)} {seen : List α} {r : Bool × List α}
    (hask : ∀ seen q r, ask seen q = some r → ask' seen q = some r)
    (hcheck : ∀ c b, .check c ∈ l → c n = some b → c m = some b)
    (h : runAll ask n l seen = some r) : runAll ask' m l seen = some r := by
  induction l generalizing seen with
  | nil => exact h
  | cons i l ih =>
    rw [runAll, Option.bind_eq_some_iff] at h
    obtain ⟨⟨b, seen'⟩, hi, hl⟩ := h
    have hi' : i.run ask' m seen = some (b, seen') :=
      run_mono hask (fun c b hc => hcheck c b (hc ▸ List.mem_cons_self)) hi
    rw [runAll, hi', Option.bind_some]
    cases b with
    | false => exact hl
    | true => exact ih (fun c b hc => hcheck c b (List.mem_cons_of_mem _ hc)) hl

variable [DecidableEq α]

theorem answer_succ {n : Nat} {seen : List α} {q : α} {r : Bool × List α}
    (h : g.answer n seen q = some r) : g.answer (n+1) seen q = some r := by
  induction n generalizing seen q r with
  | zero => simp [answer] at h
  | succ n ih =>
    rw [answer] at h ⊢
    split at h
    · exact h
    · split_ifs at h ⊢ with hseen
      · exact h
      · rw [Option.bind_eq_some_iff] at h ⊢
        obtain ⟨l, hl, hrun⟩ := h
        refine ⟨l, g.items_succ hl, runAll_mono (fun _ _ _ => ih) (fun c b hc hb => ?_) hrun⟩
        exact g.check_succ hl hc hb

theorem answer_mono {n m : Nat} (hle : n ≤ m) {seen : List α} {q : α} {r : Bool × List α}
    (h : g.answer n seen q = some r) : g.answer m seen q = some r := by
  induction hle with
  | refl => exact h
  | step _ ih => exact answer_succ ih

theorem Returns.unique {p : α} {b b' : Bool} (h : g.Returns p b) (h' : g.Returns p b') :
    b = b' := by
  obtain ⟨n, s, hn⟩ := h
  obtain ⟨m, s', hm⟩ := h'
  have h₁ := answer_mono (Nat.le_max_left n m) hn
  have h₂ := answer_mono (Nat.le_max_right n m) hm
  exact congrArg Prod.fst (Option.some.inj (h₁.symm.trans h₂))

end

/-! Runs, taken apart. -/

section
variable {g} {ask : List α → α → Option (Bool × List α)} {n : Nat} {seen seen' : List α}

theorem runAll_cons {i : Item α} {l : List (Item α)} {r : Bool × List α}
    (h : runAll ask n (i :: l) seen = some r) :
    (∃ s, i.run ask n seen = some (true, s) ∧ runAll ask n l s = some r) ∨
      i.run ask n seen = some r ∧ r.1 = false := by
  rw [runAll, Option.bind_eq_some_iff] at h
  obtain ⟨⟨b, s⟩, hi, hl⟩ := h
  cases b with
  | false =>
    cases hl
    exact .inr ⟨hi, rfl⟩
  | true => exact .inl ⟨s, hi, hl⟩

theorem run_grows (hask : ∀ seen q r, ask seen q = some r → seen ⊆ r.2) {i : Item α}
    {r : Bool × List α} (h : i.run ask n seen = some r) : seen ⊆ r.2 := by
  cases i with
  | check c =>
    obtain ⟨b, -, rfl⟩ := Option.map_eq_some_iff.mp h
    exact List.Subset.refl _
  | within q => exact hask _ _ _ h
  | afresh q =>
    obtain ⟨r', -, rfl⟩ := Option.map_eq_some_iff.mp h
    exact List.Subset.refl _

theorem runAll_grows (hask : ∀ seen q r, ask seen q = some r → seen ⊆ r.2) {l : List (Item α)}
    {r : Bool × List α} (h : runAll ask n l seen = some r) : seen ⊆ r.2 := by
  induction l generalizing seen with
  | nil =>
    cases h
    exact List.Subset.refl _
  | cons i l ih =>
    rcases runAll_cons h with ⟨s, hi, hl⟩ | ⟨hi, -⟩
    · exact List.Subset.trans (run_grows hask hi) (ih hl)
    · exact run_grows hask hi

theorem runAll_false (hask : ∀ seen q r, ask seen q = some r → seen ⊆ r.2) {l : List (Item α)}
    (h : runAll ask n l seen = some (false, seen')) :
    ∃ i ∈ l, ∃ s s', seen ⊆ s ∧ i.run ask n s = some (false, s') := by
  induction l generalizing seen with
  | nil => cases h
  | cons i l ih =>
    rcases runAll_cons h with ⟨s, hi, hl⟩ | ⟨hi, -⟩
    · obtain ⟨j, hj, t, t', hsub, hrun⟩ := ih hl
      refine ⟨j, List.mem_cons_of_mem _ hj, t, t', ?_, hrun⟩
      exact List.Subset.trans (run_grows hask hi) hsub
    · exact ⟨i, List.mem_cons_self, seen, seen', List.Subset.refl _, hi⟩

variable [DecidableEq α]

theorem answer_cases {q : α} {r : Bool × List α} (h : g.answer n seen q = some r) :
    (∃ b, g.atOnce q = some b ∧ r = (b,seen)) ∨
      (g.atOnce q = none ∧ q ∈ seen ∧ r = (true,seen)) ∨
      (q ∉ seen ∧ ∃ m l, n = m+1 ∧ g.items m q = some l ∧ g.Opens q l ∧
        runAll (g.answer m) m l (q :: seen) = some r) := by
  cases n with
  | zero => simp [answer] at h
  | succ m =>
    rw [answer] at h
    split at h
    next b hb =>
      cases h
      exact .inl ⟨b, hb, rfl⟩
    next hnone =>
      split_ifs at h with hseen
      · cases h
        exact .inr (.inl ⟨hnone, hseen, rfl⟩)
      · obtain ⟨l, hl, hrun⟩ := Option.bind_eq_some_iff.mp h
        exact .inr (.inr ⟨hseen, m, l, rfl, hl, ⟨hnone, m, hl⟩, hrun⟩)

theorem answer_grows {q : α} {r : Bool × List α} (h : g.answer n seen q = some r) :
    seen ⊆ r.2 := by
  induction n generalizing seen q r with
  | zero => simp [answer] at h
  | succ n ih =>
    rcases answer_cases h with ⟨b, -, rfl⟩ | ⟨-, -, rfl⟩ | ⟨-, m, l, hm, -, -, hrun⟩
    · exact List.Subset.refl _
    · exact List.Subset.refl _
    · cases hm
      have hsub := runAll_grows (fun _ _ _ h => ih h) hrun
      exact List.Subset.trans (List.subset_cons_self _ _) hsub

theorem refuted_of_answer {q : α} (h : g.answer n seen q = some (false, seen')) :
    g.Refuted q := by
  induction n generalizing seen q seen' with
  | zero => simp [answer] at h
  | succ n ih =>
    rcases answer_cases h with ⟨b, hb, he⟩ | ⟨-, -, he⟩ | ⟨-, m, l, hm, -, ho, hrun⟩
    · cases he
      exact .atOnce hb
    · cases he
    · cases hm
      obtain ⟨i, hi, s, s', -, hfail⟩ := runAll_false (fun _ _ _ h => answer_grows h) hrun
      cases i with
      | check c =>
        obtain ⟨b, hb, he⟩ := Option.map_eq_some_iff.mp hfail
        cases he
        exact .check ho hi hb
      | within r => exact .within ho hi (ih hfail)
      | afresh r =>
        obtain ⟨⟨b, s''⟩, hr, he⟩ := Option.map_eq_some_iff.mp hfail
        cases he
        exact .afresh ho hi (ih hr)

end

/-! What was answered yes holds up. -/

/-- What was asked is in `F`, which holds up, or pending; all that is pending was asked, and not
answered at once. -/
structure Covers (P : α → Prop) (H F : Set α) (seen : List α) : Prop where
  supports : g.Supports P H F
  known : ∀ q ∈ seen, q ∈ F ∨ q ∈ H
  pending : ∀ q ∈ H, q ∈ seen ∧ g.atOnce q = none

section
variable {g} {P : α → Prop} {H F F' : Set α} {seen seen' : List α} {n : Nat}
  {ask : List α → α → Option (Bool × List α)}

theorem Vouched.mono {H' : Set α} {q : α} (hF : F ⊆ F' ∪ H') (hH : H ⊆ F' ∪ H')
    (h : g.Vouched H F q) : g.Vouched H' F' q := by
  rcases h with h | h | h
  · exact .inl h
  · exact .inr (hF h)
  · exact .inr (hH h)

theorem Supports.pend (h : g.Supports P H F) (q : α) : g.Supports P (insert q H) F := by
  intro r hr
  obtain ⟨l, hl, hi⟩ := h r hr
  refine ⟨l, hl, fun i hm => (hi i hm).mono (fun t ht => ht.mono ?_ ?_) fun _ => id⟩
  · exact Set.subset_union_left
  · exact fun t ht => .inr (Set.mem_insert_of_mem q ht)

theorem Supports.close {q : α} {l : List (Item α)} (h : g.Supports P (insert q H) F)
    (ho : g.Opens q l) (hl : ∀ i ∈ l, i.Holds (g.Vouched (insert q H) F) P) :
    g.Supports P H (insert q F) := by
  have hmono (t : α) (ht : g.Vouched (insert q H) F t) :
      g.Vouched H (insert q F) t := by
    rcases ht with ht | ht | ht
    · exact .inl ht
    · exact .inr (.inl (Set.mem_insert_of_mem q ht))
    · rcases ht with rfl | ht
      · exact .inr (.inl (Set.mem_insert t F))
      · exact .inr (.inr ht)
  intro r hr
  rcases hr with rfl | hr
  · exact ⟨l, ho, fun i hi => (hl i hi).mono hmono fun _ => id⟩
  · obtain ⟨l', ho', hl'⟩ := h r hr
    exact ⟨l', ho', fun i hi => (hl' i hi).mono hmono fun _ => id⟩

theorem Covers.start (h : g.Covers P H F seen) {q : α} (hq : g.atOnce q = none) :
    g.Covers P (insert q H) F (q :: seen) := by
  refine ⟨h.supports.pend q, fun r hr => ?_, fun r hr => ?_⟩
  · rcases List.mem_cons.mp hr with rfl | hr
    · exact .inr (Set.mem_insert r H)
    · exact (h.known r hr).imp_right (Set.mem_insert_of_mem q)
  · rcases hr with rfl | hr
    · exact ⟨List.mem_cons_self, hq⟩
    · exact (h.pending r hr).imp_left (List.mem_cons_of_mem q)

theorem covers_nil : g.Covers P ∅ ∅ [] := ⟨nofun, nofun, nofun⟩

def Sound (g : Comparison α) (P : α → Prop) (ask : List α → α → Option (Bool × List α)) : Prop :=
  ∀ H F seen q seen', g.Covers P H F seen → ask seen q = some (true, seen') →
    ∃ F', F ⊆ F' ∧ g.Covers P H F' seen' ∧ g.Vouched H F' q

theorem Sound.item (hask : Sound g P ask) (hP : ∀ t s, ask [] t = some (true, s) → P t)
    (h : g.Covers P H F seen) {i : Item α} (hi : i.run ask n seen = some (true, seen')) :
    ∃ F', F ⊆ F' ∧ g.Covers P H F' seen' ∧ i.Holds (g.Vouched H F') P := by
  cases i with
  | check c =>
    obtain ⟨b, hb, he⟩ := Option.map_eq_some_iff.mp hi
    cases he
    exact ⟨F, subset_refl F, h, n, hb⟩
  | within q => exact hask H F seen q seen' h hi
  | afresh q =>
    obtain ⟨⟨b, s⟩, hr, he⟩ := Option.map_eq_some_iff.mp hi
    cases he
    exact ⟨F, subset_refl F, h, hP q s hr⟩

theorem Sound.all (hask : Sound g P ask) (hP : ∀ t s, ask [] t = some (true, s) → P t)
    {l : List (Item α)} (h : g.Covers P H F seen)
    (hl : runAll ask n l seen = some (true, seen')) :
    ∃ F', F ⊆ F' ∧ g.Covers P H F' seen' ∧ ∀ i ∈ l, i.Holds (g.Vouched H F') P := by
  induction l generalizing F seen with
  | nil =>
    cases hl
    exact ⟨F, subset_refl F, h, by simp⟩
  | cons i l ih =>
    rcases runAll_cons hl with ⟨s, hi, hrest⟩ | ⟨-, hf⟩
    · obtain ⟨F₁, hsub₁, h₁, hi₁⟩ := hask.item hP h hi
      obtain ⟨F₂, hsub₂, h₂, hl₂⟩ := ih h₁ hrest
      refine ⟨F₂, hsub₁.trans hsub₂, h₂, fun j hj => ?_⟩
      rcases List.mem_cons.mp hj with rfl | hj
      · refine hi₁.mono (fun t ht => ht.mono ?_ Set.subset_union_right) fun _ => id
        exact hsub₂.trans Set.subset_union_left
      · exact hl₂ j hj
    · cases hf

variable [DecidableEq α]

theorem answer_sound (hP : ∀ m < n, ∀ t s, g.answer m [] t = some (true, s) → P t) :
    Sound g P (g.answer n) := by
  induction n with
  | zero => intro H F seen q seen' _ h; simp [answer] at h
  | succ n ih =>
    intro H F seen q seen' hc h
    rcases answer_cases h with ⟨b, hb, he⟩ | ⟨-, hmem, he⟩ | ⟨-, m, l, hm, -, ho, hrun⟩
    · cases he
      exact ⟨F, subset_refl F, hc, .inl hb⟩
    · cases he
      exact ⟨F, subset_refl F, hc, .inr (hc.known q hmem)⟩
    · cases hm
      have hsound := ih fun m hm => hP m (Nat.lt_succ_of_lt hm)
      obtain ⟨F', hsub, hc', hl⟩ := hsound.all (hP n n.lt_succ_self) (hc.start ho.1) hrun
      refine ⟨insert q F', hsub.trans (Set.subset_insert q F'), ⟨?_, fun r hr => ?_,
        fun r hr => hc'.pending r (Set.mem_insert_of_mem q hr)⟩,
        .inr (.inl (Set.mem_insert q F'))⟩
      · exact hc'.supports.close ho hl
      · rcases hc'.known r hr with hr | hr
        · exact .inl (Set.mem_insert_of_mem q hr)
        · rcases hr with rfl | hr
          · exact .inl (Set.mem_insert r F')
          · exact .inr hr

theorem alike_of_answer {q : α} (h : g.answer n [] q = some (true, seen)) : g.Alike q := by
  let P (t : α) : Prop := ∃ m s, g.answer m [] t = some (true, s)
  let C : Set α := {t | ∃ F, g.Supports P ∅ F ∧ t ∈ F}
  have hanswered (t : α) (ht : P t) : g.Vouched ∅ C t := by
    obtain ⟨m, s, hm⟩ := ht
    obtain ⟨F, -, hF, hv⟩ :=
      answer_sound (P := P) (fun k _ t s ht => ⟨k, s, ht⟩) ∅ ∅ [] t s covers_nil hm
    exact hv.mono (fun r hr => .inl ⟨F, hF.supports, hr⟩) (Set.empty_subset _)
  refine ⟨C, ?_, hanswered q ⟨n, seen, h⟩⟩
  rintro t ⟨F, hF, ht⟩
  obtain ⟨l, ho, hl⟩ := hF t ht
  refine ⟨l, ho, fun i hi => (hl i hi).mono (fun r hr => ?_) hanswered⟩
  exact hr.mono (fun r hr => .inl ⟨F, hF, hr⟩) (Set.empty_subset _)

end

/-! Alike and refuted. -/

section
variable {g}

/-- A condition that holds of every item it asks is never refuted. -/
theorem not_refuted {Q : α → Prop} (honce : ∀ q, Q q → g.atOnce q ≠ some false)
    (hitems : ∀ q l, Q q → g.Opens q l → ∀ i ∈ l, i.Holds Q Q) {q : α} (hq : Q q) :
    ¬ g.Refuted q := by
  intro h
  induction h with
  | atOnce h => exact honce _ hq h
  | check ho hc hf =>
    obtain ⟨m, hm⟩ := hitems _ _ hq ho _ hc
    cases ho.check_unique hc hf hm
  | within ho hr _ ih => exact ih (hitems _ _ hq ho _ hr)
  | afresh ho hr _ ih => exact ih (hitems _ _ hq ho _ hr)

theorem Alike.cases {q : α} (h : g.Alike q) :
    g.atOnce q = some true ∨ ∃ l, g.Opens q l ∧ ∀ i ∈ l, i.Holds g.Alike g.Alike := by
  obtain ⟨F, hF, hq⟩ := h
  rcases hq with hq | hq | hq
  · exact .inl hq
  · obtain ⟨l, ho, hl⟩ := hF q hq
    refine .inr ⟨l, ho, fun i hi => (hl i hi).mono ?_ ?_⟩
    · exact fun t ht => ⟨F, hF, ht⟩
    · exact fun t ht => ⟨F, hF, ht⟩
  · cases hq

theorem Alike.not_refuted {q : α} (h : g.Alike q) : ¬ g.Refuted q := by
  refine Comparison.not_refuted (Q := g.Alike) (fun q h hf => ?_) (fun q l h ho i hi => ?_) h
  · rcases h.cases with hq | ⟨l, ho, -⟩
    · rw [hf] at hq
      cases hq
    · have hnone := ho.1
      rw [hf] at hnone
      cases hnone
  · rcases h.cases with hq | ⟨l', ho', hl'⟩
    · rw [ho.1] at hq
      cases hq
    · rw [ho'.unique ho] at hl'
      exact hl' i hi

variable [DecidableEq α]

theorem Returns.alike {q : α} (h : g.Returns q true) : g.Alike q := by
  obtain ⟨n, s, hn⟩ := h
  exact alike_of_answer hn

theorem Returns.refuted {q : α} (h : g.Returns q false) : g.Refuted q := by
  obtain ⟨n, s, hn⟩ := h
  exact refuted_of_answer hn

theorem item_not_false {H : Set α} {n k : Nat}
    (hask : ∀ r seen s, g.AlikeUnder H r → (∀ t ∈ H, t ∈ seen ∧ g.atOnce t = none) →
      g.answer n seen r ≠ some (false, s))
    {q : α} {l : List (Item α)} (ho : g.Opens q l) {i : Item α} (hi : i ∈ l)
    (h : i.Holds (g.AlikeUnder H) g.Alike) {seen s : List α}
    (hH : ∀ t ∈ H, t ∈ seen ∧ g.atOnce t = none) :
    i.run (g.answer n) k seen ≠ some (false, s) := by
  intro hf
  cases i with
  | check c =>
    obtain ⟨b, hb, he⟩ := Option.map_eq_some_iff.mp hf
    cases he
    obtain ⟨j, hj⟩ := h
    cases ho.check_unique hi hb hj
  | within r => exact hask r seen s h hH hf
  | afresh r =>
    obtain ⟨⟨b, s'⟩, hr, he⟩ := Option.map_eq_some_iff.mp hf
    cases he
    exact Alike.not_refuted h (refuted_of_answer hr)

theorem AlikeUnder.not_false {H : Set α} {q : α} {n : Nat} {seen seen' : List α}
    (h : g.AlikeUnder H q) (hH : ∀ r ∈ H, r ∈ seen ∧ g.atOnce r = none) :
    g.answer n seen q ≠ some (false, seen') := by
  intro hf
  induction n generalizing seen q seen' with
  | zero => simp [answer] at hf
  | succ n ih =>
    obtain ⟨F, hF, hq⟩ := h
    rcases answer_cases hf with ⟨b, hb, he⟩ | ⟨-, -, he⟩ | ⟨hmem, m, l, hm, -, ho, hrun⟩
    · cases he
      rcases hq with hq | hq | hq
      · rw [hb] at hq
        cases hq
      · obtain ⟨l, ho, -⟩ := hF q hq
        have hnone := ho.1
        rw [hb] at hnone
        cases hnone
      · have hnone := (hH q hq).2
        rw [hb] at hnone
        cases hnone
    · cases he
    · cases hm
      have hqF : q ∈ F := by
        rcases hq with hq | hq | hq
        · rw [ho.1] at hq
          cases hq
        · exact hq
        · exact absurd (hH q hq).1 hmem
      obtain ⟨l', ho', hl⟩ := hF q hqF
      rw [ho'.unique ho] at hl
      obtain ⟨i, hi, s, s', hsub, hfail⟩ := runAll_false (fun _ _ _ h => answer_grows h) hrun
      refine item_not_false (fun r seen s hr hH hf => ih hr hH hf) ho hi ?_ (fun t ht => ?_) hfail
      · exact (hl i hi).mono (fun t ht => ⟨F, hF, ht⟩) fun _ => id
      · exact (hH t ht).imp_left fun hmem => hsub (List.mem_cons_of_mem q hmem)

end

end Comparison
end Graph
