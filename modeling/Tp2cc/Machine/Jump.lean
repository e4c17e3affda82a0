import Mathlib.Data.List.Basic

set_option autoImplicit false

namespace Machine

inductive Ending (ℓ : Type) where
  | normal
  | broke
  | continued
  | jumped (l : ℓ)
  deriving DecidableEq

/-- Statements on a state. The block of `declare` has its variables beside the state outside. -/
inductive Jumping (ℓ : Type) : Type → Type 1
  | skip {S : Type} : Jumping ℓ S
  | perform {S : Type} (run : S → S → Prop) : Jumping ℓ S
  | leave {S : Type} : Jumping ℓ S
  | next {S : Type} : Jumping ℓ S
  | goto {S : Type} (l : ℓ) : Jumping ℓ S
  | label {S : Type} (l : ℓ) : Jumping ℓ S
  | seq {S : Type} (first second : Jumping ℓ S) : Jumping ℓ S
  | block {S : Type} (body : Jumping ℓ S) : Jumping ℓ S
  | branch {S : Type} (test : S → Bool → S → Prop) (yes no : Jumping ℓ S) : Jumping ℓ S
  | whileDo {S : Type} (test : S → Bool → S → Prop) (body : Jumping ℓ S) : Jumping ℓ S
  | doWhile {S : Type} (body : Jumping ℓ S) (test : S → Bool → S → Prop) : Jumping ℓ S
  | declare {L S : Type} (init : S → L → S → Prop) (body : Jumping ℓ (L × S)) : Jumping ℓ S
  | outer {L S : Type} (body : Jumping ℓ S) : Jumping ℓ (L × S)

inductive Rounds {ℓ S : Type} (test : S → Bool → S → Prop) (body : S → Ending ℓ → S → Prop) :
    S → Ending ℓ → S → Prop
  | done {s s' : S} (htest : test s false s') : Rounds test body s .normal s'
  | broke {s s₁ s' : S} (htest : test s true s₁) (hbody : body s₁ .broke s') :
      Rounds test body s .normal s'
  | jumped {s s₁ s' : S} {l : ℓ} (htest : test s true s₁) (hbody : body s₁ (.jumped l) s') :
      Rounds test body s (.jumped l) s'
  | again {s s₁ s₂ s' : S} {e e' : Ending ℓ} (htest : test s true s₁) (hbody : body s₁ e s₂)
      (he : e = .normal ∨ e = .continued) (hrest : Rounds test body s₂ e' s') :
      Rounds test body s e' s'

namespace Jumping
variable {ℓ : Type}

def labels : {S : Type} → Jumping ℓ S → List ℓ
  | _, .label l => [l]
  | _, .seq first second => first.labels ++ second.labels
  | _, .outer body => body.labels
  | _, _ => []

section
variable [DecidableEq ℓ]

/-- A run from the start, or from a label. A jump goes on behind its label when the label is in the
rest of the sequence, and leaves the sequence when it is in none of its parts. There are no runs for
a jump backwards. -/
def Runs : {S : Type} → Jumping ℓ S → Option ℓ → S → Ending ℓ → S → Prop
  | _, .skip, _, s, e, s' => e = .normal ∧ s' = s
  | _, .perform run, _, s, e, s' => e = .normal ∧ run s s'
  | _, .leave, _, s, e, s' => e = .broke ∧ s' = s
  | _, .next, _, s, e, s' => e = .continued ∧ s' = s
  | _, .goto l, _, s, e, s' => e = .jumped l ∧ s' = s
  | _, .label _, _, s, e, s' => e = .normal ∧ s' = s
  | _, .seq first second, from?, s, e, s' =>
    if from?.any (· ∉ first.labels) then second.Runs from? s e s'
    else ∃ e₁ s₁, first.Runs from? s e₁ s₁ ∧
      match e₁ with
      | .normal => second.Runs none s₁ e s'
      | .jumped l =>
        if l ∈ second.labels then second.Runs (some l) s₁ e s'
        else l ∉ first.labels ∧ e = .jumped l ∧ s' = s₁
      | e₁ => e = e₁ ∧ s' = s₁
  | _, .block body, _, s, e, s' => body.Runs none s e s'
  | _, .branch test yes no, _, s, e, s' => ∃ b s₁, test s b s₁ ∧
      if b then yes.Runs none s₁ e s' else no.Runs none s₁ e s'
  | _, .whileDo test body, _, s, e, s' => Rounds test (body.Runs none) s e s'
  | _, .doWhile body test, _, s, e, s' => ∃ e₁ s₁, body.Runs none s e₁ s₁ ∧
      match e₁ with
      | .broke => e = .normal ∧ s' = s₁
      | .jumped l => e = .jumped l ∧ s' = s₁
      | _ => Rounds test (body.Runs none) s₁ e s'
  | _, .declare init body, _, s, e, s' => ∃ l s₁ l', init s l s₁ ∧ body.Runs none (l,s₁) e (l',s')
  | _, .outer body, from?, s, e, s' => body.Runs from? s.2 e s'.2 ∧ s'.1 = s.1

section
variable {S L : Type} {first second body : Jumping ℓ S} {s s' : S} {e : Ending ℓ}

theorem seq_runs (h : ∀ l s s', first.Runs none s (.jumped l) s' →
      l ∉ first.labels ∧ l ∉ second.labels) :
    (first.seq second).Runs none s e s' ↔
      (∃ s₁, first.Runs none s .normal s₁ ∧ second.Runs none s₁ e s') ∨
        e ≠ .normal ∧ first.Runs none s e s' := by
  simp only [Runs, Option.any_none, Bool.false_eq_true, if_false]
  constructor
  · rintro ⟨e₁, s₁, hfirst, hrest⟩
    cases e₁ with
    | normal => exact .inl ⟨s₁, hfirst, hrest⟩
    | broke =>
      obtain ⟨rfl, rfl⟩ := hrest
      exact .inr ⟨nofun, hfirst⟩
    | continued =>
      obtain ⟨rfl, rfl⟩ := hrest
      exact .inr ⟨nofun, hfirst⟩
    | jumped l =>
      simp only [(h l s s₁ hfirst).2, if_false] at hrest
      obtain ⟨_, rfl, rfl⟩ := hrest
      exact .inr ⟨nofun, hfirst⟩
  · intro hruns
    cases hruns with
    | inl hruns =>
      obtain ⟨s₁, hfirst, hsecond⟩ := hruns
      exact ⟨.normal, s₁, hfirst, hsecond⟩
    | inr hruns =>
      refine ⟨e, s', hruns.2, ?_⟩
      cases e with
      | normal => exact absurd rfl hruns.1
      | broke => exact ⟨rfl, rfl⟩
      | continued => exact ⟨rfl, rfl⟩
      | jumped l =>
        obtain ⟨hl, hl'⟩ := h l s s' hruns.2
        simp only [hl', if_false]
        exact ⟨hl, trivial, trivial⟩

/-- Behind its label a jump goes on as the end of the first statement does. -/
theorem seq_label_runs {l : ℓ} (hlabels : second.labels = [])
    (h : ∀ l s s', first.Runs none s (.jumped l) s' → l ∉ first.labels) :
    (first.seq ((label l).seq second)).Runs none s e s' ↔ ∃ e₁ s₁, first.Runs none s e₁ s₁ ∧
      if e₁ = .normal ∨ e₁ = .jumped l then second.Runs none s₁ e s' else e = e₁ ∧ s' = s₁ := by
  have hbehind : ((label l).seq second).labels = [l] := by simp [labels, hlabels]
  have hstart {s : S} : ((label l).seq second).Runs none s e s' ↔ second.Runs none s e s' := by
    simp [Runs]
  have htarget {s : S} : ((label l).seq second).Runs (some l) s e s' ↔
      second.Runs none s e s' := by
    simp [Runs, labels]
  rw [Runs, Option.any_none, if_neg Bool.false_ne_true, hbehind]
  apply exists_congr
  intro e₁
  apply exists_congr
  intro s₁
  apply and_congr_right
  intro hfirst
  cases e₁ with
  | normal => simp [hstart]
  | broke => simp
  | continued => simp
  | jumped m =>
    by_cases hm : m = l
    · simp [hm, htarget]
    · simp [hm, h m s s₁ hfirst]

theorem seq_last_label_runs {l : ℓ}
    (h : ∀ l s s', first.Runs none s (.jumped l) s' → l ∉ first.labels) :
    (first.seq (label l)).Runs none s e s' ↔ ∃ e₁ s₁, first.Runs none s e₁ s₁ ∧
      (e = if e₁ = .jumped l then .normal else e₁) ∧ s' = s₁ := by
  rw [Runs, Option.any_none, if_neg Bool.false_ne_true]
  apply exists_congr
  intro e₁
  apply exists_congr
  intro s₁
  apply and_congr_right
  intro hfirst
  cases e₁ with
  | normal => simp [Runs]
  | broke => simp
  | continued => simp
  | jumped m =>
    by_cases hm : m = l
    · simp [Runs, labels, hm]
    · simp [labels, hm, h m s s₁ hfirst]

@[simp] theorem perform_runs {run : S → S → Prop} {from? : Option ℓ} :
    (perform run).Runs from? s e s' ↔ e = .normal ∧ run s s' := Iff.rfl

@[simp] theorem skip_runs {from? : Option ℓ} :
    (skip : Jumping ℓ S).Runs from? s e s' ↔ e = .normal ∧ s' = s := Iff.rfl

@[simp] theorem whileDo_runs {test : S → Bool → S → Prop} {from? : Option ℓ} :
    (whileDo test body).Runs from? s e s' ↔ Rounds test (body.Runs none) s e s' := Iff.rfl

@[simp] theorem doWhile_runs {test : S → Bool → S → Prop} {from? : Option ℓ} :
    (doWhile body test).Runs from? s e s' ↔ ∃ e₁ s₁, body.Runs none s e₁ s₁ ∧
      match e₁ with
      | .broke => e = .normal ∧ s' = s₁
      | .jumped l => e = .jumped l ∧ s' = s₁
      | _ => Rounds test (body.Runs none) s₁ e s' := Iff.rfl

@[simp] theorem declare_runs {init : S → L → S → Prop} {inner : Jumping ℓ (L × S)}
    {from? : Option ℓ} : (declare init inner).Runs from? s e s' ↔
      ∃ l s₁ l', init s l s₁ ∧ inner.Runs none (l,s₁) e (l',s') := Iff.rfl

theorem branch_runs (test : S → Bool) {from? : Option ℓ} :
    (branch (fun s b s' => b = test s ∧ s' = s) first second).Runs from? s e s' ↔
      if test s then first.Runs none s e s' else second.Runs none s e s' := by
  constructor
  · rintro ⟨b, s₁, ⟨hb, hs₁⟩, h⟩
    rw [hb, hs₁] at h
    exact h
  · intro h
    exact ⟨test s, s, ⟨rfl, rfl⟩, h⟩

@[simp] theorem outer_runs {l l' : L} {from? : Option ℓ} :
    (outer body).Runs from? (l,s) e (l',s') ↔ body.Runs from? s e s' ∧ l' = l := Iff.rfl

end

end
end Jumping

def Visits {V S : Type} (visit : V → S → Bool → S → Prop) : List V → S → Bool → S → Prop
  | [], s, stop, s' => stop = false ∧ s' = s
  | v :: vs, s, stop, s' => ∃ stop₁ s₁, visit v s stop₁ s₁ ∧
      if stop₁ then stop = true ∧ s' = s₁ else Visits visit vs s₁ stop s'

/-- The values of a hidden variable that is stepped until it is the last. -/
inductive Stepped {L : Type} (last : L → Bool) (step : L → L) : L → List L → Prop
  | done {l : L} (hlast : last l = true) : Stepped last step l [l]
  | again {l : L} {ls : List L} (hlast : last l = false) (hrest : Stepped last step (step l) ls) :
      Stepped last step l (l :: ls)

section
variable {V W S L ℓ : Type} {visit : V → S → Bool → S → Prop} {s s' : S} {stop : Bool}

theorem visits_map {f : W → V} {ws : List W} :
    Visits visit (ws.map f) s stop s' ↔ Visits (fun w => visit (f w)) ws s stop s' := by
  induction ws generalizing s with
  | nil => exact Iff.rfl
  | cons w ws ih => simp only [List.map_cons, Visits, ih]

theorem visits_filter {p : V → Bool} {vs : List V} :
    Visits visit (vs.filter p) s stop s' ↔ Visits (fun v s stop s' =>
      if p v then visit v s stop s' else stop = false ∧ s' = s) vs s stop s' := by
  induction vs generalizing s with
  | nil => exact Iff.rfl
  | cons v vs ih =>
    cases hp : p v with
    | true => simp only [List.filter_cons_of_pos hp, Visits, hp, if_true, ih]
    | false =>
      rw [List.filter_cons_of_neg (by simp [hp]), ih]
      simp [Visits, hp]

theorem visits_congr {visit' : V → S → Bool → S → Prop} {vs : List V}
    (h : ∀ v ∈ vs, ∀ s stop s', visit v s stop s' ↔ visit' v s stop s') :
    Visits visit vs s stop s' ↔ Visits visit' vs s stop s' := by
  induction vs generalizing s with
  | nil => exact Iff.rfl
  | cons v vs ih =>
    have hv := h v List.mem_cons_self
    have hvs {s : S} := ih (s := s) fun w hw => h w (List.mem_cons_of_mem v hw)
    simp only [Visits, hv, hvs]

section
variable {visit : L → S → Bool → S → Prop} {last : L → Bool} {step : L → L}
  {body : L × S → Ending ℓ → L × S → Prop} {brk : ℓ} {l : L} {e : Ending ℓ}

theorem rounds_round (hbody : ∀ l s e l' s', body (l,s) e (l',s') ↔ ∃ stop, visit l s stop s' ∧
      if stop then e = .jumped brk ∧ l' = l
      else if last l then e = .broke ∧ l' = l
      else e = .normal ∧ l' = step l) :
    (∃ l', Rounds (fun s b s' => b = true ∧ s' = s) body (l,s) e (l',s')) ↔
      ∃ stop s₁, visit l s stop s₁ ∧
        if stop then e = .jumped brk ∧ s' = s₁
        else if last l then e = .normal ∧ s' = s₁
        else ∃ l', Rounds (fun s b s' => b = true ∧ s' = s) body (step l,s₁) e (l',s') := by
  constructor
  · rintro ⟨l', h⟩
    cases h with
    | done htest => cases htest.1
    | broke htest hround =>
      cases htest.2
      obtain ⟨stop, hvisit, hend⟩ := (hbody ..).mp hround
      refine ⟨stop, s', hvisit, ?_⟩
      cases stop with
      | true => cases hend.1
      | false => cases hlast : last l <;> simp_all
    | jumped htest hround =>
      cases htest.2
      obtain ⟨stop, hvisit, hend⟩ := (hbody ..).mp hround
      refine ⟨stop, s', hvisit, ?_⟩
      cases stop with
      | true => exact ⟨hend.1, rfl⟩
      | false => cases hlast : last l <;> simp_all
    | @again _ _ p _ e₁ _ htest hround he hrounds =>
      obtain ⟨l₁, s₁⟩ := p
      cases htest.2
      obtain ⟨stop, hvisit, hend⟩ := (hbody ..).mp hround
      refine ⟨stop, s₁, hvisit, ?_⟩
      cases stop with
      | true => simp_all
      | false =>
        cases hlast : last l with
        | true => simp_all
        | false =>
          simp only [hlast, Bool.false_eq_true, if_false] at hend ⊢
          exact ⟨l', hend.2 ▸ hrounds⟩
  · rintro ⟨stop, s₁, hvisit, hrest⟩
    cases stop with
    | true =>
      obtain ⟨rfl, rfl⟩ := hrest
      exact ⟨l, .jumped ⟨rfl, rfl⟩ ((hbody ..).mpr ⟨true, hvisit, rfl, rfl⟩)⟩
    | false =>
      cases hlast : last l with
      | true =>
        simp only [hlast, Bool.false_eq_true, if_false, if_true] at hrest
        obtain ⟨rfl, rfl⟩ := hrest
        exact ⟨l, .broke ⟨rfl, rfl⟩ ((hbody ..).mpr ⟨false, hvisit, by simp [hlast]⟩)⟩
      | false =>
        simp only [hlast, Bool.false_eq_true, if_false] at hrest
        obtain ⟨l', hrounds⟩ := hrest
        have hround := (hbody l s .normal (step l) s₁).mpr ⟨false, hvisit, by simp [hlast]⟩
        exact ⟨l', .again ⟨rfl, rfl⟩ hround (.inl rfl) hrounds⟩

theorem rounds_visits (hbody : ∀ l s e l' s', body (l,s) e (l',s') ↔ ∃ stop, visit l s stop s' ∧
      if stop then e = .jumped brk ∧ l' = l
      else if last l then e = .broke ∧ l' = l
      else e = .normal ∧ l' = step l) {ls : List L} (hls : Stepped last step l ls) :
    (∃ l', Rounds (fun s b s' => b = true ∧ s' = s) body (l,s) e (l',s')) ↔
      ∃ stop, Visits visit ls s stop s' ∧ e = if stop then .jumped brk else .normal := by
  induction hls generalizing s with
  | done hlast =>
    rw [rounds_round hbody]
    simp only [Visits, hlast, if_true]
    constructor
    · rintro ⟨stop, s₁, hvisit, hrest⟩
      cases stop with
      | true => exact ⟨true, ⟨true, s₁, hvisit, rfl, hrest.2⟩, hrest.1⟩
      | false => exact ⟨false, ⟨false, s₁, hvisit, rfl, hrest.2⟩, hrest.1⟩
    · rintro ⟨stop, ⟨stop₁, s₁, hvisit, hrest⟩, he⟩
      refine ⟨stop₁, s₁, hvisit, ?_⟩
      cases stop₁ with
      | true =>
        obtain ⟨rfl, rfl⟩ := hrest
        exact ⟨he, rfl⟩
      | false =>
        obtain ⟨rfl, rfl⟩ := hrest
        exact ⟨he, rfl⟩
  | again hlast hrest ih =>
    rw [rounds_round hbody]
    simp only [Visits, hlast, Bool.false_eq_true, if_false, ih]
    constructor
    · rintro ⟨stop, s₁, hvisit, hrest⟩
      cases stop with
      | true => exact ⟨true, ⟨true, s₁, hvisit, rfl, hrest.2⟩, hrest.1⟩
      | false =>
        obtain ⟨stop, hvisits, he⟩ := hrest
        exact ⟨stop, ⟨false, s₁, hvisit, hvisits⟩, he⟩
    · rintro ⟨stop, ⟨stop₁, s₁, hvisit, hrest⟩, he⟩
      refine ⟨stop₁, s₁, hvisit, ?_⟩
      cases stop₁ with
      | true =>
        obtain ⟨rfl, rfl⟩ := hrest
        exact ⟨he, rfl⟩
      | false => exact ⟨stop, hrest, he⟩

end

end
end Machine
