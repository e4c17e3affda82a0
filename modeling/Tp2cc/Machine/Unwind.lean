import Mathlib.Data.List.Basic

/-! Statements of C++ with exceptions, scope guards, `return` and jumps to labels behind them. -/
set_option autoImplicit false

namespace Machine

structure LoopEnds (ω ξ : Type) where
  ends : ω → Option ω
  normal : ω
  thrown : ξ → ω

inductive Laps {ω ξ S : Type} (w : LoopEnds ω ξ) (test : S → Except ξ Bool × S)
    (body : S → ω → S → Prop) : S → ω → S → Prop
  | done {s s' : S} (htest : test s = (.ok false, s')) : Laps w test body s w.normal s'
  | failed {s s' : S} {x : ξ} (htest : test s = (.error x, s')) :
      Laps w test body s (w.thrown x) s'
  | left {s s₁ s' : S} {e e' : ω} (htest : test s = (.ok true, s₁)) (hbody : body s₁ e s')
      (he : w.ends e = some e') : Laps w test body s e' s'
  | again {s s₁ s₂ s' : S} {e e' : ω} (htest : test s = (.ok true, s₁)) (hbody : body s₁ e s₂)
      (he : w.ends e = none) (hrest : Laps w test body s₂ e' s') : Laps w test body s e' s'

def LapsOnce {ω ξ S : Type} (w : LoopEnds ω ξ) (test : S → Except ξ Bool × S)
    (body : S → ω → S → Prop) (s : S) (e : ω) (s' : S) : Prop :=
  ∃ e₁ s₁, body s e₁ s₁ ∧
    match w.ends e₁ with
    | some e₂ => e = e₂ ∧ s' = s₁
    | none => Laps w test body s₁ e s'

inductive Leaving (ℓ ρ ξ : Type) where
  | normal
  | broke
  | continued
  | jumped (l : ℓ)
  | returned (v : ρ)
  | thrown (x : ξ)
  | terminated

namespace Leaving
variable {ℓ ρ ξ : Type}

def loopEnds : LoopEnds (Leaving ℓ ρ ξ) ξ where
  ends
    | normal => none
    | continued => none
    | broke => some normal
    | e => some e
  normal := normal
  thrown := thrown

def ofThrown : Option ξ → Leaving ℓ ρ ξ
  | none => normal
  | some x => thrown x

def landed [DecidableEq ℓ] (l : ℓ) : Leaving ℓ ρ ξ → Leaving ℓ ρ ξ
  | jumped m => if m = l then normal else jumped m
  | e => e

/-- The way out of a block when the destructor of its guard has run. The cleanup is a function of
its own, which ends at its `return`, and a destructor that throws ends the program. -/
def cleaned (body : Leaving ℓ ρ ξ) : Leaving ℓ ρ ξ → Option (Leaving ℓ ρ ξ)
  | normal => some body
  | returned _ => some body
  | thrown _ => some terminated
  | terminated => some terminated
  | _ => none

end Leaving

/-- Evaluations see the exceptions that the handlers around them have caught, the innermost first.
`guarded` declares an object whose destructor runs the cleanup, and has the body in its scope. -/
inductive Unwinding (ℓ ρ ξ S : Type) where
  | skip
  | perform (run : List ξ → S → Option ξ × S)
  | leave
  | next
  | goto (l : ℓ)
  | label (l : ℓ)
  | ret (value : S → ρ)
  | rethrow
  | seq (first second : Unwinding ℓ ρ ξ S)
  | block (body : Unwinding ℓ ρ ξ S)
  | branch (test : List ξ → S → Except ξ Bool × S) (yes no : Unwinding ℓ ρ ξ S)
  | whileDo (test : List ξ → S → Except ξ Bool × S) (body : Unwinding ℓ ρ ξ S)
  | doWhile (body : Unwinding ℓ ρ ξ S) (test : List ξ → S → Except ξ Bool × S)
  | guarded (cleanup body : Unwinding ℓ ρ ξ S)
  | attempt (body : Unwinding ℓ ρ ξ S) (accepts : ξ → Bool) (handler : Unwinding ℓ ρ ξ S)

namespace Unwinding
variable {ℓ ρ ξ S : Type}

def labels : Unwinding ℓ ρ ξ S → List ℓ
  | label l => [l]
  | seq first second => first.labels ++ second.labels
  | _ => []

variable [DecidableEq ℓ]

/-- A run from the start, or from a label. `return` has taken its value before any cleanup runs.
There are no runs for a jump backwards or out of a cleanup. -/
def Runs : Unwinding ℓ ρ ξ S → List ξ → Option ℓ → S → Leaving ℓ ρ ξ → S → Prop
  | skip, _, _, s, e, s' => e = .normal ∧ s' = s
  | perform run, caught, _, s, e, s' => e = .ofThrown (run caught s).1 ∧ s' = (run caught s).2
  | leave, _, _, s, e, s' => e = .broke ∧ s' = s
  | next, _, _, s, e, s' => e = .continued ∧ s' = s
  | goto l, _, _, s, e, s' => e = .jumped l ∧ s' = s
  | label _, _, _, s, e, s' => e = .normal ∧ s' = s
  | ret value, _, _, s, e, s' => e = .returned (value s) ∧ s' = s
  | rethrow, caught, _, s, e, s' =>
    e = (match caught with
      | x :: _ => .thrown x
      | [] => .terminated) ∧ s' = s
  | seq first second, caught, from?, s, e, s' =>
    if from?.any (· ∉ first.labels) then second.Runs caught from? s e s'
    else ∃ e₁ s₁, first.Runs caught from? s e₁ s₁ ∧
      match e₁ with
      | .normal => second.Runs caught none s₁ e s'
      | .jumped l =>
        if l ∈ second.labels then second.Runs caught (some l) s₁ e s'
        else l ∉ first.labels ∧ e = .jumped l ∧ s' = s₁
      | e₁ => e = e₁ ∧ s' = s₁
  | block body, caught, _, s, e, s' => body.Runs caught none s e s'
  | branch test yes no, caught, _, s, e, s' =>
    match test caught s with
    | (.ok true, s₁) => yes.Runs caught none s₁ e s'
    | (.ok false, s₁) => no.Runs caught none s₁ e s'
    | (.error x, s₁) => e = .thrown x ∧ s' = s₁
  | whileDo test body, caught, _, s, e, s' =>
    Laps Leaving.loopEnds (test caught) (body.Runs caught none) s e s'
  | doWhile body test, caught, _, s, e, s' =>
    LapsOnce Leaving.loopEnds (test caught) (body.Runs caught none) s e s'
  | guarded cleanup body, caught, _, s, e, s' =>
    ∃ e₁ s₁, body.Runs caught none s e₁ s₁ ∧
      match e₁ with
      | .terminated => e = .terminated ∧ s' = s₁
      | e₁ => ∃ e₂, cleanup.Runs caught none s₁ e₂ s' ∧ e₁.cleaned e₂ = some e
  | attempt body accepts handler, caught, _, s, e, s' =>
    ∃ e₁ s₁, body.Runs caught none s e₁ s₁ ∧
      match e₁ with
      | .thrown x =>
        if accepts x then handler.Runs (x :: caught) none s₁ e s' else e = .thrown x ∧ s' = s₁
      | e₁ => e = e₁ ∧ s' = s₁

section
variable {caught : List ξ} {first second body : Unwinding ℓ ρ ξ S} {s s' : S} {e : Leaving ℓ ρ ξ}

theorem seq_runs (h : ∀ l s s', first.Runs caught none s (.jumped l) s' →
      l ∉ first.labels ∧ l ∉ second.labels) :
    (first.seq second).Runs caught none s e s' ↔
      (∃ s₁, first.Runs caught none s .normal s₁ ∧ second.Runs caught none s₁ e s') ∨
        e ≠ .normal ∧ first.Runs caught none s e s' := by
  simp only [Runs, Option.any_none, Bool.false_eq_true, if_false]
  constructor
  · intro hruns
    obtain ⟨e₁, s₁, hfirst, hrest⟩ := hruns
    cases e₁ with
    | normal => exact .inl ⟨s₁, hfirst, hrest⟩
    | jumped l =>
      simp only [(h l s s₁ hfirst).2, if_false] at hrest
      obtain ⟨-, rfl, rfl⟩ := hrest
      exact .inr ⟨by simp, hfirst⟩
    | broke | continued | returned v | thrown x | terminated =>
      obtain ⟨rfl, rfl⟩ := hrest
      exact .inr ⟨by simp, hfirst⟩
  · intro hruns
    cases hruns with
    | inl hruns =>
      obtain ⟨s₁, hfirst, hsecond⟩ := hruns
      exact ⟨.normal, s₁, hfirst, hsecond⟩
    | inr hruns =>
      refine ⟨e, s', hruns.2, ?_⟩
      cases e with
      | normal => exact absurd rfl hruns.1
      | jumped l =>
        obtain ⟨hl, hl'⟩ := h l s s' hruns.2
        simp [hl, hl']
      | broke | continued | returned v | thrown x | terminated => simp

theorem branch_runs {test : List ξ → S → Except ξ Bool × S} {s₁ : S} {b : Bool}
    (h : test caught s = (.ok b, s₁)) {from? : Option ℓ} :
    (branch test first second).Runs caught from? s e s' ↔
      if b then first.Runs caught none s₁ e s' else second.Runs caught none s₁ e s' := by
  cases b <;> simp [Runs, h]

theorem seq_label_runs {l : ℓ}
    (h : ∀ m s s', first.Runs caught none s (.jumped m) s' → m ∉ first.labels) :
    (first.seq (label l)).Runs caught none s e s' ↔
      ∃ e₁, first.Runs caught none s e₁ s' ∧ e = e₁.landed l := by
  simp only [Runs, Option.any_none, Bool.false_eq_true, if_false, labels, List.mem_singleton]
  constructor
  · intro hruns
    obtain ⟨e₁, s₁, hfirst, hrest⟩ := hruns
    cases e₁ with
    | jumped m =>
      by_cases hm : m = l
      · simp only [hm, if_true] at hrest
        obtain ⟨rfl, rfl⟩ := hrest
        exact ⟨.jumped m, hfirst, by simp [Leaving.landed, hm]⟩
      · simp only [hm, if_false] at hrest
        obtain ⟨-, rfl, rfl⟩ := hrest
        exact ⟨.jumped m, hfirst, by simp [Leaving.landed, hm]⟩
    | normal | broke | continued | returned v | thrown x | terminated =>
      obtain ⟨rfl, rfl⟩ := hrest
      exact ⟨_, hfirst, rfl⟩
  · intro hruns
    obtain ⟨e₁, hfirst, rfl⟩ := hruns
    refine ⟨e₁, s', hfirst, ?_⟩
    cases e₁ with
    | jumped m =>
      by_cases hm : m = l
      · simp [Leaving.landed, hm]
      · simp [Leaving.landed, hm, h m s s' hfirst]
    | normal | broke | continued | returned v | thrown x | terminated => simp [Leaving.landed]

end

def Atoms (R : S → S → Prop) : Unwinding ℓ ρ ξ S → Prop
  | perform run => ∀ caught s, R s (run caught s).2
  | seq first second => first.Atoms R ∧ second.Atoms R
  | block body => body.Atoms R
  | branch test yes no => (∀ caught s, R s (test caught s).2) ∧ yes.Atoms R ∧ no.Atoms R
  | whileDo test body => (∀ caught s, R s (test caught s).2) ∧ body.Atoms R
  | doWhile body test => (∀ caught s, R s (test caught s).2) ∧ body.Atoms R
  | guarded cleanup body => cleanup.Atoms R ∧ body.Atoms R
  | attempt body _ handler => body.Atoms R ∧ handler.Atoms R
  | _ => True

end Unwinding

section
variable {ω ξ S : Type} {w : LoopEnds ω ξ} {test : S → Except ξ Bool × S}
  {body : S → ω → S → Prop} {R : S → S → Prop} {s s' : S} {e : ω}

theorem Laps.related (htrans : ∀ {s₁ s₂ s₃}, R s₁ s₂ → R s₂ s₃ → R s₁ s₃)
    (htest : ∀ s, R s (test s).2) (hbody : ∀ {s e s'}, body s e s' → R s s')
    (h : Laps w test body s e s') : R s s' := by
  induction h with
  | @done s s' ht =>
    have hr := htest s
    rw [ht] at hr
    exact hr
  | @failed s s' x ht =>
    have hr := htest s
    rw [ht] at hr
    exact hr
  | @left s s₁ s' e e' ht hb he =>
    have hr := htest s
    rw [ht] at hr
    exact htrans hr (hbody hb)
  | @again s s₁ s₂ s' e e' ht hb he _ ih =>
    have hr := htest s
    rw [ht] at hr
    exact htrans hr (htrans (hbody hb) ih)

theorem LapsOnce.related (htrans : ∀ {s₁ s₂ s₃}, R s₁ s₂ → R s₂ s₃ → R s₁ s₃)
    (htest : ∀ s, R s (test s).2) (hbody : ∀ {s e s'}, body s e s' → R s s')
    (h : LapsOnce w test body s e s') : R s s' := by
  obtain ⟨e₁, s₁, hb, hrest⟩ := h
  cases hends : w.ends e₁ with
  | some e₂ =>
    rw [hends] at hrest
    rw [hrest.2]
    exact hbody hb
  | none =>
    rw [hends] at hrest
    exact htrans (hbody hb) (Laps.related htrans htest hbody hrest)

end

theorem Unwinding.Runs.related {ℓ ρ ξ S : Type} [DecidableEq ℓ] {R : S → S → Prop}
    (hrefl : ∀ s, R s s) (htrans : ∀ {s₁ s₂ s₃}, R s₁ s₂ → R s₂ s₃ → R s₁ s₃)
    {code : Unwinding ℓ ρ ξ S} (hcode : code.Atoms R) {caught : List ξ} {from? : Option ℓ}
    {s s' : S} {e : Leaving ℓ ρ ξ} (h : code.Runs caught from? s e s') : R s s' := by
  induction code generalizing caught from? s e s' with
  | skip | leave | next | goto l | label l | ret value | rethrow =>
    rw [h.2]
    exact hrefl s
  | perform run =>
    rw [h.2]
    exact hcode caught s
  | seq first second ihf ihs =>
    rw [Unwinding.Runs] at h
    split at h
    · exact ihs hcode.2 h
    · obtain ⟨e₁, s₁, hfirst, hrest⟩ := h
      have hr := ihf hcode.1 hfirst
      cases e₁ with
      | normal => exact htrans hr (ihs hcode.2 hrest)
      | jumped l =>
        by_cases hl : l ∈ second.labels
        · simp only [hl, if_true] at hrest
          exact htrans hr (ihs hcode.2 hrest)
        · simp only [hl, if_false] at hrest
          rw [hrest.2.2]
          exact hr
      | broke | continued | returned v | thrown x | terminated =>
        rw [hrest.2]
        exact hr
  | block body ih => exact ih hcode h
  | branch test yes no ihy ihn =>
    have hr := hcode.1 caught s
    rw [Unwinding.Runs] at h
    split at h <;> rename_i heq <;> rw [heq] at hr
    · exact htrans hr (ihy hcode.2.1 h)
    · exact htrans hr (ihn hcode.2.2 h)
    · rw [h.2]
      exact hr
  | whileDo test body ih => exact Laps.related htrans (hcode.1 caught) (ih hcode.2) h
  | doWhile body test ih => exact LapsOnce.related htrans (hcode.1 caught) (ih hcode.2) h
  | guarded cleanup body ihc ihb =>
    obtain ⟨e₁, s₁, hbody, hrest⟩ := h
    have hr := ihb hcode.2 hbody
    cases e₁ with
    | terminated =>
      rw [hrest.2]
      exact hr
    | normal | broke | continued | jumped l | returned v | thrown x =>
      obtain ⟨e₂, hcleanup, -⟩ := hrest
      exact htrans hr (ihc hcode.1 hcleanup)
  | attempt body accepts handler ihb ihh =>
    obtain ⟨e₁, s₁, hbody, hrest⟩ := h
    have hr := ihb hcode.1 hbody
    cases e₁ with
    | thrown x =>
      by_cases hx : accepts x = true
      · simp only [hx, if_true] at hrest
        exact htrans hr (ihh hcode.2 hrest)
      · simp only [hx, Bool.false_eq_true, if_false] at hrest
        rw [hrest.2]
        exact hr
    | normal | broke | continued | jumped l | returned v | terminated =>
      rw [hrest.2]
      exact hr

/-! Two loops whose states and outcomes correspond. -/

section
variable {ω ω' ξ S T : Type} {w : LoopEnds ω ξ} {w' : LoopEnds ω' ξ}
  {test : S → Except ξ Bool × S} {test' : T → Except ξ Bool × T} {body : S → ω → S → Prop}
  {body' : T → ω' → T → Prop} {π : T → S} {out : ω → S → ω'} {c : ω' → ω'} {g : ω → S → ω'}

/-- What a loop does with the way its body ended, in both loops. `c` is what becomes of an outcome
behind the second loop. -/
structure LoopsAlike (w : LoopEnds ω ξ) (w' : LoopEnds ω' ξ) (g out : ω → S → ω') (c : ω' → ω') :
    Prop where
  ends : ∀ p v, (w'.ends (g p v)).map c = (w.ends p).map (out · v)
  normal : ∀ v, c w'.normal = out w.normal v
  thrown : ∀ x v, c (w'.thrown x) = out (w.thrown x) v

theorem LoopsAlike.none_iff (h : LoopsAlike w w' g out c) (p : ω) (v : S) :
    w'.ends (g p v) = none ↔ w.ends p = none := by
  rw [← @Option.map_eq_none_iff _ _ _ c, h.ends, Option.map_eq_none_iff]

theorem exists_test (htest : ∀ t, test (π t) = ((test' t).1, π (test' t).2)) {t : T} {s : S}
    {r : Except ξ Bool} (h : test (π t) = (r, s)) : ∃ t', test' t = (r, t') ∧ π t' = s := by
  rw [htest, Prod.mk.injEq] at h
  exact ⟨(test' t).2, Prod.ext h.1 rfl, h.2⟩

theorem laps_iff (hloops : LoopsAlike w w' g out c)
    (htest : ∀ t, test (π t) = ((test' t).1, π (test' t).2))
    (hbody : ∀ t e v, (∃ t', body' t e t' ∧ π t' = v) ↔ ∃ p, body (π t) p v ∧ e = g p v)
    {t : T} {e : ω'} {v : S} :
    (∃ e₁ t', Laps w' test' body' t e₁ t' ∧ π t' = v ∧ e = c e₁) ↔
      ∃ p, Laps w test body (π t) p v ∧ e = out p v := by
  constructor
  · intro h
    obtain ⟨e₁, t', hlaps, rfl, rfl⟩ := h
    induction hlaps with
    | @done t t' ht =>
      refine ⟨w.normal, .done ?_, hloops.normal _⟩
      rw [htest, ht]
    | @failed t t' x ht =>
      refine ⟨w.thrown x, .failed ?_, hloops.thrown x _⟩
      rw [htest, ht]
    | @left t t₁ t' e e' ht hb he =>
      obtain ⟨p, hp, rfl⟩ := (hbody t₁ e (π t')).mp ⟨t', hb, rfl⟩
      have hends := hloops.ends p (π t')
      rw [he, Option.map_some] at hends
      obtain ⟨q, hq, hout⟩ := Option.map_eq_some_iff.mp hends.symm
      refine ⟨q, .left (by rw [htest, ht]) hp hq, hout.symm⟩
    | @again t t₁ t₂ t' e e' ht hb he _ ih =>
      obtain ⟨p, hp, rfl⟩ := (hbody t₁ e (π t₂)).mp ⟨t₂, hb, rfl⟩
      obtain ⟨q, hq, hout⟩ := ih
      refine ⟨q, .again (by rw [htest, ht]) hp ((hloops.none_iff p _).mp he) hq, hout⟩
  · intro h
    obtain ⟨p, hlaps, rfl⟩ := h
    generalize hs : π t = s at hlaps
    induction hlaps generalizing t with
    | @done s s' ht =>
      subst hs
      obtain ⟨t', ht', rfl⟩ := exists_test htest ht
      exact ⟨w'.normal, t', .done ht', rfl, (hloops.normal _).symm⟩
    | @failed s s' x ht =>
      subst hs
      obtain ⟨t', ht', rfl⟩ := exists_test htest ht
      exact ⟨w'.thrown x, t', .failed ht', rfl, (hloops.thrown x _).symm⟩
    | @left s s₁ s' p q ht hb hq =>
      subst hs
      obtain ⟨t₁, ht', rfl⟩ := exists_test htest ht
      obtain ⟨t', hb', rfl⟩ := (hbody _ _ _).mpr ⟨p, hb, rfl⟩
      have hends := hloops.ends p (π t')
      rw [hq, Option.map_some] at hends
      obtain ⟨e', he', hout⟩ := Option.map_eq_some_iff.mp hends
      exact ⟨e', t', .left ht' hb' he', rfl, hout.symm⟩
    | @again s s₁ s₂ s' p q ht hb hp _ ih =>
      subst hs
      obtain ⟨t₁, ht', rfl⟩ := exists_test htest ht
      obtain ⟨t₂, hb', rfl⟩ := (hbody _ _ _).mpr ⟨p, hb, rfl⟩
      obtain ⟨e', t', hlaps, hv, hout⟩ := ih rfl
      exact ⟨e', t', .again ht' hb' ((hloops.none_iff p _).mpr hp) hlaps, hv, hout⟩

theorem lapsOnce_iff (hloops : LoopsAlike w w' g out c)
    (htest : ∀ t, test (π t) = ((test' t).1, π (test' t).2))
    (hbody : ∀ t e v, (∃ t', body' t e t' ∧ π t' = v) ↔ ∃ p, body (π t) p v ∧ e = g p v)
    {t : T} {e : ω'} {v : S} :
    (∃ e₁ t', LapsOnce w' test' body' t e₁ t' ∧ π t' = v ∧ e = c e₁) ↔
      ∃ p, LapsOnce w test body (π t) p v ∧ e = out p v := by
  constructor
  · intro h
    obtain ⟨e₁, t', ⟨e₀, t₁, hb, hrest⟩, rfl, rfl⟩ := h
    obtain ⟨p, hp, rfl⟩ := (hbody t e₀ (π t₁)).mp ⟨t₁, hb, rfl⟩
    have hends := hloops.ends p (π t₁)
    cases hq : w.ends p with
    | none =>
      rw [(hloops.none_iff p _).mpr hq] at hrest
      obtain ⟨q, hlaps, hout⟩ := (laps_iff hloops htest hbody).mp ⟨e₁, t', hrest, rfl, rfl⟩
      exact ⟨q, ⟨p, π t₁, hp, by rw [hq]; exact hlaps⟩, hout⟩
    | some q =>
      rw [hq, Option.map_some] at hends
      obtain ⟨e', he', hout⟩ := Option.map_eq_some_iff.mp hends
      rw [he'] at hrest
      obtain ⟨rfl, rfl⟩ := hrest
      exact ⟨q, ⟨p, π t', hp, by rw [hq]; exact ⟨rfl, rfl⟩⟩, hout⟩
  · intro h
    obtain ⟨q, ⟨p, s₁, hp, hrest⟩, rfl⟩ := h
    obtain ⟨t₁, hb, rfl⟩ := (hbody t _ s₁).mpr ⟨p, hp, rfl⟩
    have hends := hloops.ends p (π t₁)
    cases hq : w.ends p with
    | none =>
      rw [hq] at hrest
      obtain ⟨e₁, t', hlaps, hv, hout⟩ := (laps_iff hloops htest hbody).mpr ⟨q, hrest, rfl⟩
      exact ⟨e₁, t', ⟨_, t₁, hb, by rw [(hloops.none_iff p _).mpr hq]; exact hlaps⟩, hv, hout⟩
    | some q' =>
      rw [hq] at hrest
      obtain ⟨rfl, rfl⟩ := hrest
      rw [hq, Option.map_some] at hends
      obtain ⟨e', he', hout⟩ := Option.map_eq_some_iff.mp hends
      exact ⟨e', t₁, ⟨_, t₁, hb, by rw [he']; exact ⟨rfl, rfl⟩⟩, rfl, hout.symm⟩

end

end Machine
