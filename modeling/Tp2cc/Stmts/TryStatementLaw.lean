import Tp2cc.Stmts.TryStatement

/-! The C++ of a statement runs as the statement does, when its cleanups come to their ends. -/
set_option autoImplicit false

namespace Tp2cc.Control
open Machine

section
variable {σ ξ κ ρ : Type} (classes : ExceptionClasses ξ κ) (result : σ → ρ)

/-! The numbers of a statement are new. -/

def Counters.Le (c c' : Counters) : Prop := c.tryStmt ≤ c'.tryStmt ∧ c.loopLabel ≤ c'.loopLabel

theorem Counters.Le.refl (c : Counters) : c.Le c := ⟨Nat.le_refl _, Nat.le_refl _⟩

theorem Counters.Le.trans {c₁ c₂ c₃ : Counters} (h : c₁.Le c₂) (h' : c₂.Le c₃) : c₁.Le c₃ :=
  ⟨Nat.le_trans h.1 h'.1, Nat.le_trans h.2 h'.2⟩

theorem Counters.le_try (c : Counters) : c.Le { c with tryStmt := c.tryStmt+1 } :=
  ⟨Nat.le_succ _, Nat.le_refl _⟩

theorem Counters.le_loop (c : Counters) : c.Le { c with loopLabel := c.loopLabel+1 } :=
  ⟨Nat.le_refl _, Nat.le_succ _⟩

mutual

theorem emitStmt_counters (s : Stmt σ ξ κ) (loop : Option Nat) (c : Counters) :
    c.Le (emitStmt classes result s loop c).2 := by
  cases s with
  | empty | action _ | breakStmt | continueStmt | exit | exitValue _ | raise _ | reraise =>
    exact .refl c
  | sequence first second =>
    exact (emitStmt_counters first loop c).trans (emitStmt_counters second loop _)
  | compound body => exact emitStmt_counters body loop c
  | ifStmt cond yes no => exact (emitStmt_counters yes loop c).trans (emitStmt_counters no loop _)
  | whileStmt cond body => exact c.le_loop.trans (emitStmt_counters body _ _)
  | repeatStmt body cond => exact c.le_loop.trans (emitStmt_counters body _ _)
  | tryFinally body cleanup =>
    exact c.le_try.trans ((emitStmt_counters cleanup loop _).trans (emitStmt_counters body loop _))
  | tryExcept body otherwise =>
    exact c.le_try.trans ((emitStmt_counters body loop _).trans (emitStmt_counters otherwise loop _))
  | tryOn body handlers =>
    exact c.le_try.trans ((emitStmt_counters body loop _).trans (emitHandlers_counters _ handlers loop _))
  | tryOnElse body handlers otherwise =>
    exact c.le_try.trans ((emitStmt_counters body loop _).trans
      ((emitHandlers_counters _ handlers loop _).trans
        ((emitStmt_counters otherwise loop _).trans (emitStmt_counters otherwise loop _))))

theorem emitHandlers_counters (n : Nat) (handlers : Handlers σ ξ κ) (loop : Option Nat)
    (c : Counters) : c.Le (emitHandlers classes result n handlers loop c).2 := by
  cases handlers with
  | last cls body => exact emitStmt_counters body loop c
  | more cls body rest =>
    exact (emitStmt_counters body loop c).trans (emitHandlers_counters n rest loop _)

end

theorem emitStmt_labels (s : Stmt σ ξ κ) (loop : Option Nat) (c : Counters) :
    ∀ l ∈ (emitStmt classes result s loop c).1.labels, c.loopLabel < l.number := by
  cases s with
  | empty | action _ | exit | exitValue _ | raise _ | reraise | compound _ | ifStmt _ _ _
  | tryFinally _ _ | tryExcept _ _ | tryOn _ _ | tryOnElse _ _ _ =>
    simp [emitStmt, Unwinding.labels]
  | breakStmt => cases loop <;> simp [emitStmt, Unwinding.labels]
  | continueStmt => cases loop <;> simp [emitStmt, Unwinding.labels]
  | sequence first second =>
    intro l hl
    obtain hl | hl := List.mem_append.mp hl
    · exact emitStmt_labels first loop c l hl
    · exact Nat.lt_of_le_of_lt (emitStmt_counters classes result first loop c).2
        (emitStmt_labels second loop _ l hl)
  | whileStmt _ _ => simp [emitStmt, Unwinding.labels, LoopLabel.number]
  | repeatStmt _ _ => simp [emitStmt, Unwinding.labels, LoopLabel.number]

/-! Flags of other `try` statements stay. -/

def KeepsFlag (m : Nat) (t t' : Frame σ) : Prop := t'.handled m = t.handled m

theorem setHandled_keeps {m n : Nat} (h : m ≠ n) (value : Bool) :
    (setHandled n value : Code σ ξ ρ).Atoms (KeepsFlag m) :=
  fun _ _ => Function.update_of_ne h _ _

theorem emitHandler_keeps {m n : Nat} (h : m ≠ n) (cls : κ) {body rest : Code σ ξ ρ}
    (hbody : body.Atoms (KeepsFlag m)) (hrest : rest.Atoms (KeepsFlag m)) :
    (emitHandler classes n cls body rest).Atoms (KeepsFlag m) :=
  ⟨fun _ _ => rfl, ⟨setHandled_keeps h true, hbody⟩, hrest⟩

theorem emitHandled_keeps {m n : Nat} (h : m ≠ n) {chain : Code σ ξ ρ}
    (hchain : chain.Atoms (KeepsFlag m)) : (emitHandled n chain).Atoms (KeepsFlag m) :=
  ⟨setHandled_keeps h false, hchain, fun _ _ => rfl, trivial, trivial⟩

mutual

theorem emitStmt_keeps {m : Nat} (s : Stmt σ ξ κ) (loop : Option Nat) {c : Counters}
    (h : m ≤ c.tryStmt) : (emitStmt classes result s loop c).1.Atoms (KeepsFlag m) := by
  cases s with
  | empty | exit | reraise => trivial
  | breakStmt => cases loop <;> trivial
  | continueStmt => cases loop <;> trivial
  | action _ => exact fun _ _ => rfl
  | raise _ => exact fun _ _ => rfl
  | exitValue _ => exact ⟨fun _ _ => rfl, trivial⟩
  | sequence first second =>
    have hc := emitStmt_counters classes result first loop c
    exact ⟨emitStmt_keeps first loop h, emitStmt_keeps second loop (Nat.le_trans h hc.1)⟩
  | compound body => exact emitStmt_keeps body loop h
  | ifStmt cond yes no =>
    have hc := emitStmt_counters classes result yes loop c
    exact ⟨fun _ _ => rfl, emitStmt_keeps yes loop h, emitStmt_keeps no loop (Nat.le_trans h hc.1)⟩
  | whileStmt cond body => exact ⟨⟨fun _ _ => rfl, emitStmt_keeps body _ h, trivial⟩, trivial⟩
  | repeatStmt body cond => exact ⟨⟨fun _ _ => rfl, emitStmt_keeps body _ h, trivial⟩, trivial⟩
  | tryFinally body cleanup =>
    have h₁ : m ≤ c.tryStmt+1 := Nat.le_succ_of_le h
    have hc := emitStmt_counters classes result cleanup loop { c with tryStmt := c.tryStmt+1 }
    exact ⟨emitStmt_keeps cleanup loop h₁, emitStmt_keeps body loop (Nat.le_trans h₁ hc.1)⟩
  | tryExcept body otherwise =>
    have h₁ : m ≤ c.tryStmt+1 := Nat.le_succ_of_le h
    have hc := emitStmt_counters classes result body loop { c with tryStmt := c.tryStmt+1 }
    exact ⟨emitStmt_keeps body loop h₁, emitStmt_keeps otherwise loop (Nat.le_trans h₁ hc.1)⟩
  | tryOn body handlers =>
    have h₁ : m ≤ c.tryStmt+1 := Nat.le_succ_of_le h
    have hc := emitStmt_counters classes result body loop { c with tryStmt := c.tryStmt+1 }
    have hn : m ≠ c.tryStmt+1 := Nat.ne_of_lt (Nat.lt_succ_of_le h)
    exact ⟨emitStmt_keeps body loop h₁, emitHandled_keeps hn
      (emitHandlers_keeps hn handlers loop (Nat.le_trans h₁ hc.1) trivial)⟩
  | tryOnElse body handlers otherwise =>
    have h₁ : m ≤ c.tryStmt+1 := Nat.le_succ_of_le h
    have hc := emitStmt_counters classes result body loop { c with tryStmt := c.tryStmt+1 }
    have hn : m ≠ c.tryStmt+1 := Nat.ne_of_lt (Nat.lt_succ_of_le h)
    have h₂ := Nat.le_trans h₁ hc.1
    have hc₂ := emitHandlers_counters classes result (c.tryStmt+1) handlers loop
      (emitStmt classes result body loop { c with tryStmt := c.tryStmt+1 }).2
    have h₃ := Nat.le_trans h₂ hc₂.1
    have hunmatched := emitStmt_keeps otherwise loop h₃
    have hc₃ := emitStmt_counters classes result otherwise loop (emitHandlers classes result
      (c.tryStmt+1) handlers loop
        (emitStmt classes result body loop { c with tryStmt := c.tryStmt+1 }).2).2
    refine ⟨emitStmt_keeps body loop h₁, fun _ _ => rfl, emitHandled_keeps hn ?_,
      emitStmt_keeps otherwise loop (Nat.le_trans h₃ hc₃.1)⟩
    exact emitHandlers_keeps hn handlers loop h₂ ⟨setHandled_keeps hn true, hunmatched⟩

theorem emitHandlers_keeps {m n : Nat} (hn : m ≠ n) (handlers : Handlers σ ξ κ)
    (loop : Option Nat) {c : Counters} (h : m ≤ c.tryStmt) {final : Code σ ξ ρ}
    (hfinal : final.Atoms (KeepsFlag m)) :
    ((emitHandlers classes result n handlers loop c).1 final).Atoms (KeepsFlag m) := by
  cases handlers with
  | last cls body => exact emitHandler_keeps classes hn cls (emitStmt_keeps body loop h) hfinal
  | more cls body rest =>
    have hc := emitStmt_counters classes result body loop c
    exact emitHandler_keeps classes hn cls (emitStmt_keeps body loop h)
      (emitHandlers_keeps hn rest loop (Nat.le_trans h hc.1) hfinal)

end

/-! Runs of the C++ against those of the statement. -/

/-- How control comes out of the C++ of a statement, which knows the loop around it. -/
def Outcome.leaving (loop : Option Nat) : Outcome ξ → σ → Leaving LoopLabel ρ ξ
  | .normal, _ => .normal
  | .broke, _ =>
    match loop with
    | some n => .jumped (.brk n)
    | none => .broke
  | .continued, _ =>
    match loop with
    | some n => .jumped (.cont n)
    | none => .continued
  | .exited, s => .returned (result s)
  | .raised x, _ => .thrown x

/-- The code leaves the variables as the statement does, and on the same way out. -/
def Lowers (loop : Option Nat) (env : List ξ) (code : Code σ ξ ρ)
    (stmt : σ → Outcome ξ → σ → Prop) : Prop :=
  ∀ t e v, (∃ t', code.Runs env none t e t' ∧ t'.vars = v) ↔
    ∃ o, stmt t.vars o v ∧ e = o.leaving result loop v

variable {result}

theorem leaving_eq_normal {loop : Option Nat} {o : Outcome ξ} {s : σ} :
    o.leaving result loop s = .normal ↔ o = .normal := by
  cases o <;> cases loop <;> simp [Outcome.leaving]

theorem leaving_eq_jumped {loop : Option Nat} {o : Outcome ξ} {s : σ} {l : LoopLabel}
    (h : o.leaving result loop s = .jumped l) : ∃ n ∈ loop, l = .brk n ∨ l = .cont n := by
  cases o <;> cases loop <;> simp_all [Outcome.leaving]

namespace Lowers
variable {loop : Option Nat} {env : List ξ} {code first second : Code σ ξ ρ}
  {stmt stmt' P Q : σ → Outcome ξ → σ → Prop}

theorem congr (h : Lowers result loop env code stmt) (hs : ∀ s o s', stmt s o s' ↔ stmt' s o s') :
    Lowers result loop env code stmt' := by
  intro t e v
  rw [h t e v]
  simp only [hs]

theorem run (h : Lowers result loop env code stmt) {t t' : Frame σ} {e : Leaving LoopLabel ρ ξ}
    (hrun : code.Runs env none t e t') :
    ∃ o, stmt t.vars o t'.vars ∧ e = o.leaving result loop t'.vars :=
  (h t e t'.vars).mp ⟨t', hrun, rfl⟩

theorem exists_run (h : Lowers result loop env code stmt) {t : Frame σ} {o : Outcome ξ} {v : σ}
    (hs : stmt t.vars o v) :
    ∃ t', code.Runs env none t (o.leaving result loop v) t' ∧ t'.vars = v :=
  (h t _ v).mpr ⟨o, hs, rfl⟩

theorem jumped (h : Lowers result loop env code stmt) {t t' : Frame σ} {l : LoopLabel}
    (hrun : code.Runs env none t (.jumped l) t') : ∃ n ∈ loop, l = .brk n ∨ l = .cont n := by
  obtain ⟨o, -, ho⟩ := h.run hrun
  exact leaving_eq_jumped ho.symm

theorem jumped_notMem (h : Lowers result loop env code stmt) {k : Nat}
    (hloop : ∀ n ∈ loop, n ≤ k) {labels : List LoopLabel} (hlabels : ∀ l ∈ labels, k < l.number)
    {t t' : Frame σ} {l : LoopLabel} (hrun : code.Runs env none t (.jumped l) t') :
    l ∉ labels := by
  obtain ⟨n, hn, hl⟩ := h.jumped hrun
  intro hmem
  have hk := hlabels l hmem
  have hle := hloop n hn
  obtain rfl | rfl := hl <;> exact absurd hk (Nat.not_lt.mpr hle)

theorem of_step (step : Frame σ → Leaving LoopLabel ρ ξ × Frame σ)
    (hcode : ∀ t e t', code.Runs env none t e t' ↔ e = (step t).1 ∧ t' = (step t).2)
    (hstmt : ∀ t e v, (∃ o, stmt t.vars o v ∧ e = o.leaving result loop v) ↔
      e = (step t).1 ∧ v = (step t).2.vars) : Lowers result loop env code stmt := by
  intro t e v
  rw [hstmt]
  constructor
  · intro h
    obtain ⟨t', hrun, rfl⟩ := h
    obtain ⟨rfl, rfl⟩ := (hcode t e t').mp hrun
    exact ⟨rfl, rfl⟩
  · intro h
    exact ⟨(step t).2, (hcode t e _).mpr ⟨h.1, rfl⟩, h.2.symm⟩

theorem seq (hfirst : Lowers result loop env first P) (hsecond : Lowers result loop env second Q)
    {k : Nat} (hloop : ∀ n ∈ loop, n ≤ k) (hl₁ : ∀ l ∈ first.labels, k < l.number)
    (hl₂ : ∀ l ∈ second.labels, k < l.number) :
    Lowers result loop env (first.seq second) fun s o s' =>
      (∃ s₁, P s .normal s₁ ∧ Q s₁ o s') ∨ o ≠ .normal ∧ P s o s' := by
  intro t e v
  have hjumps : ∀ l t t', first.Runs env none t (.jumped l) t' →
      l ∉ first.labels ∧ l ∉ second.labels := fun l t t' hrun =>
    ⟨hfirst.jumped_notMem hloop hl₁ hrun, hfirst.jumped_notMem hloop hl₂ hrun⟩
  simp only [Unwinding.seq_runs hjumps]
  constructor
  · intro h
    obtain ⟨t', ⟨t₁, hrun₁, hrun₂⟩ | ⟨he, hrun⟩, rfl⟩ := h
    · obtain ⟨o₁, hP, ho₁⟩ := hfirst.run hrun₁
      obtain ⟨o, hQ, ho⟩ := hsecond.run hrun₂
      rw [leaving_eq_normal.mp ho₁.symm] at hP
      exact ⟨o, .inl ⟨t₁.vars, hP, hQ⟩, ho⟩
    · obtain ⟨o, hP, ho⟩ := hfirst.run hrun
      refine ⟨o, .inr ⟨?_, hP⟩, ho⟩
      rintro rfl
      exact he ho
  · intro h
    obtain ⟨o, ⟨s₁, hP, hQ⟩ | ⟨ho, hP⟩, rfl⟩ := h
    · obtain ⟨t₁, hrun₁, rfl⟩ := hfirst.exists_run hP
      obtain ⟨t', hrun₂, rfl⟩ := hsecond.exists_run hQ
      exact ⟨t', .inl ⟨t₁, hrun₁, hrun₂⟩, rfl⟩
    · obtain ⟨t', hrun, rfl⟩ := hfirst.exists_run hP
      exact ⟨t', .inr ⟨mt leaving_eq_normal.mp ho, hrun⟩, rfl⟩

theorem block (h : Lowers result loop env code stmt) : Lowers result loop env code.block stmt := h

theorem branch (hyes : Lowers result loop env first P) (hno : Lowers result loop env second Q)
    (cond : List ξ → σ → Except ξ Bool × σ) :
    Lowers result loop env (.branch (evaluate cond) first second) fun s o s' =>
      match cond env s with
      | (.ok true, s₁) => P s₁ o s'
      | (.ok false, s₁) => Q s₁ o s'
      | (.error x, s₁) => o = .raised x ∧ s' = s₁ := by
  intro t e v
  simp only [Unwinding.Runs, evaluate]
  cases hc : cond env t.vars with | mk r s₁
  cases r with
  | ok b =>
    cases b with
    | true => exact hyes ⟨s₁, t.handled⟩ e v
    | false => exact hno ⟨s₁, t.handled⟩ e v
  | error x =>
    constructor
    · intro h
      obtain ⟨t', ⟨rfl, rfl⟩, rfl⟩ := h
      exact ⟨.raised x, ⟨rfl, rfl⟩, rfl⟩
    · intro h
      obtain ⟨o, ⟨rfl, rfl⟩, rfl⟩ := h
      exact ⟨_, ⟨rfl, rfl⟩, rfl⟩

theorem loopsAlike (loop : Option Nat) (n : Nat) :
    LoopsAlike (Outcome.loopEnds : LoopEnds (Outcome ξ) ξ)
      (Leaving.loopEnds : LoopEnds (Leaving LoopLabel ρ ξ) ξ)
      (fun o s => (o.leaving result (some n) s).landed (.cont n))
      (fun o s => o.leaving result loop s) (Leaving.landed (.brk n)) := by
  constructor
  · intro o s
    cases o <;> simp [Outcome.loopEnds, Leaving.loopEnds, Outcome.leaving, Leaving.landed]
  · intro s
    rfl
  · intro x s
    rfl

theorem labelled {n : Nat} (h : Lowers result (some n) env code stmt)
    (hlabels : ∀ l ∈ code.labels, n < l.number) (t : Frame σ) (e : Leaving LoopLabel ρ ξ) (v : σ) :
    (∃ t', (code.seq (.label (.cont n))).Runs env none t e t' ∧ t'.vars = v) ↔
      ∃ o, stmt t.vars o v ∧ e = (o.leaving result (some n) v).landed (.cont n) := by
  have hjumps : ∀ l t t', code.Runs env none t (.jumped l) t' → l ∉ code.labels :=
    fun l t t' hrun => h.jumped_notMem (by simp) hlabels hrun
  simp only [Unwinding.seq_label_runs hjumps]
  constructor
  · intro hrun
    obtain ⟨t', ⟨e₁, hrun, rfl⟩, rfl⟩ := hrun
    obtain ⟨o, ho, rfl⟩ := h.run hrun
    exact ⟨o, ho, rfl⟩
  · intro hrun
    obtain ⟨o, ho, rfl⟩ := hrun
    obtain ⟨t', hrun, rfl⟩ := h.exists_run ho
    exact ⟨t', ⟨_, hrun, rfl⟩, rfl⟩

theorem whileDo {n : Nat} (h : Lowers result (some n) env code stmt)
    (hlabels : ∀ l ∈ code.labels, n < l.number) (cond : List ξ → σ → Except ξ Bool × σ) :
    Lowers result loop env
      (.seq (.whileDo (evaluate cond) (.seq code (.label (.cont n)))) (.label (.brk n)))
      (Laps Outcome.loopEnds (cond env) stmt) := by
  have htest : ∀ t : Frame σ, cond env t.vars =
      ((evaluate cond env t).1, (evaluate cond env t).2.vars) := fun _ => rfl
  have hlabel {t t' : Frame σ} {e : Leaving LoopLabel ρ ξ} :=
    @Unwinding.seq_label_runs _ _ _ _ _ env
      (.whileDo (evaluate cond) (.seq code (.label (.cont n)))) t t' e (.brk n)
      (fun _ _ _ _ => List.not_mem_nil)
  intro t e v
  rw [← laps_iff (loopsAlike loop n) htest (h.labelled hlabels)]
  simp only [hlabel]
  constructor
  · intro hrun
    obtain ⟨t', ⟨e₁, hrun, he⟩, hv⟩ := hrun
    exact ⟨e₁, t', hrun, hv, he⟩
  · intro hrun
    obtain ⟨e₁, t', hrun, hv, he⟩ := hrun
    exact ⟨t', ⟨e₁, hrun, he⟩, hv⟩

theorem doWhile {n : Nat} (h : Lowers result (some n) env code stmt)
    (hlabels : ∀ l ∈ code.labels, n < l.number) (cond : List ξ → σ → Except ξ Bool × σ) :
    Lowers result loop env
      (.seq (.doWhile (.seq code (.label (.cont n))) (negated (evaluate cond))) (.label (.brk n)))
      (LapsOnce Outcome.loopEnds (negated cond env) stmt) := by
  have htest : ∀ t : Frame σ, negated cond env t.vars =
      ((negated (evaluate cond) env t).1, (negated (evaluate cond) env t).2.vars) := fun _ => rfl
  have hlabel {t t' : Frame σ} {e : Leaving LoopLabel ρ ξ} :=
    @Unwinding.seq_label_runs _ _ _ _ _ env
      (.doWhile (.seq code (.label (.cont n))) (negated (evaluate cond))) t t' e (.brk n)
      (fun _ _ _ _ => List.not_mem_nil)
  intro t e v
  rw [← lapsOnce_iff (loopsAlike loop n) htest (h.labelled hlabels)]
  simp only [hlabel]
  constructor
  · intro hrun
    obtain ⟨t', ⟨e₁, hrun, he⟩, hv⟩ := hrun
    exact ⟨e₁, t', hrun, hv, he⟩
  · intro hrun
    obtain ⟨e₁, t', hrun, hv, he⟩ := hrun
    exact ⟨t', ⟨e₁, hrun, he⟩, hv⟩

theorem guarded (hbody : Lowers result loop env first P) (hcleanup : Lowers result loop env second Q)
    (hsettled : ∀ s o s₁ o₂ s₂, P s o s₁ → Q s₁ o₂ s₂ →
      o₂ = .normal ∧ (o = .exited → result s₂ = result s₁)) :
    Lowers result loop env (.guarded second first) fun s o s' => ∃ o₁ s₁ o₂, P s o₁ s₁ ∧
      Q s₁ o₂ s' ∧ match o₂ with
        | .normal => o = o₁
        | o₂ => o = o₂ := by
  have hleaving : ∀ {o : Outcome ξ} {s₁ s₂}, (o = .exited → result s₂ = result s₁) →
      o.leaving result loop s₂ = o.leaving result loop s₁ := by
    intro o s₁ s₂ h
    cases o <;> simp_all [Outcome.leaving]
  have hended : ∀ {o : Outcome ξ} {s}, o.leaving result loop s ≠ .terminated := by
    intro o s
    cases o <;> cases loop <;> simp [Outcome.leaving]
  intro t e v
  constructor
  · intro h
    obtain ⟨t', ⟨e₁, t₁, hrun₁, hrest⟩, rfl⟩ := h
    obtain ⟨o₁, hP, rfl⟩ := hbody.run hrun₁
    obtain ⟨e₂, hrun₂, he⟩ : ∃ e₂, second.Runs env none t₁ e₂ t' ∧
        (o₁.leaving result loop t₁.vars).cleaned e₂ = some e := by
      cases hl : o₁.leaving result loop t₁.vars with
      | terminated => exact absurd hl hended
      | normal | broke | continued | jumped l | returned v | thrown x =>
        rw [hl] at hrest
        exact hrest
    obtain ⟨o₂, hQ, rfl⟩ := hcleanup.run hrun₂
    obtain ⟨rfl, hresult⟩ := hsettled _ _ _ _ _ hP hQ
    refine ⟨o₁, ⟨o₁, t₁.vars, .normal, hP, hQ, rfl⟩, ?_⟩
    rw [hleaving hresult]
    exact (Option.some.inj he).symm
  · intro h
    obtain ⟨o, ⟨o₁, s₁, o₂, hP, hQ, ho⟩, rfl⟩ := h
    obtain ⟨rfl, hresult⟩ := hsettled _ _ _ _ _ hP hQ
    obtain rfl : o = o₁ := ho
    obtain ⟨t₁, hrun₁, rfl⟩ := hbody.exists_run hP
    obtain ⟨t', hrun₂, rfl⟩ := hcleanup.exists_run hQ
    refine ⟨t', ⟨_, t₁, hrun₁, ?_⟩, rfl⟩
    rw [hleaving hresult]
    cases hl : o.leaving result loop t₁.vars with
    | terminated => exact absurd hl hended
    | normal | broke | continued | jumped l | returned v | thrown x => exact ⟨_, hrun₂, rfl⟩

theorem attempt (hbody : Lowers result loop env first P) {accepts : ξ → Bool}
    {Q : ξ → σ → Outcome ξ → σ → Prop}
    (hhandler : ∀ x, (∃ s s₁, P s (.raised x) s₁) → accepts x = true →
      Lowers result loop (x :: env) second (Q x))
    (hforeign : ∀ x, (∃ s s₁, P s (.raised x) s₁) → accepts x = false →
      ∀ s o s', Q x s o s' ↔ o = .raised x ∧ s' = s) :
    Lowers result loop env (.attempt first accepts second) fun s o s' => ∃ o₁ s₁, P s o₁ s₁ ∧
      match o₁ with
      | .raised x => Q x s₁ o s'
      | o₁ => o = o₁ ∧ s' = s₁ := by
  intro t e v
  constructor
  · intro h
    obtain ⟨t', ⟨e₁, t₁, hrun₁, hrest⟩, rfl⟩ := h
    obtain ⟨o₁, hP, rfl⟩ := hbody.run hrun₁
    cases o₁ with
    | raised x =>
      cases hx : accepts x with
      | true =>
        simp only [Outcome.leaving, hx, if_true] at hrest
        obtain ⟨o, hQ, ho⟩ := (hhandler x ⟨_, _, hP⟩ hx).run hrest
        exact ⟨o, ⟨.raised x, t₁.vars, hP, hQ⟩, ho⟩
      | false =>
        simp only [Outcome.leaving, hx, Bool.false_eq_true, if_false] at hrest
        obtain ⟨rfl, rfl⟩ := hrest
        exact ⟨.raised x, ⟨.raised x, t'.vars, hP, (hforeign x ⟨_, _, hP⟩ hx _ _ _).mpr ⟨rfl, rfl⟩⟩, rfl⟩
    | normal =>
      obtain ⟨rfl, rfl⟩ := hrest
      exact ⟨.normal, ⟨.normal, t'.vars, hP, rfl, rfl⟩, rfl⟩
    | exited =>
      obtain ⟨rfl, rfl⟩ := hrest
      exact ⟨.exited, ⟨.exited, t'.vars, hP, rfl, rfl⟩, rfl⟩
    | broke =>
      refine ⟨.broke, ⟨.broke, t₁.vars, hP, rfl, ?_⟩, ?_⟩ <;> cases loop <;> simp_all [Outcome.leaving]
    | continued =>
      refine ⟨.continued, ⟨.continued, t₁.vars, hP, rfl, ?_⟩, ?_⟩ <;> cases loop <;>
        simp_all [Outcome.leaving]
  · intro h
    obtain ⟨o, ⟨o₁, s₁, hP, hrest⟩, rfl⟩ := h
    obtain ⟨t₁, hrun₁, rfl⟩ := hbody.exists_run hP
    cases o₁ with
    | raised x =>
      cases hx : accepts x with
      | true =>
        obtain ⟨t', hrun₂, rfl⟩ := (hhandler x ⟨_, _, hP⟩ hx).exists_run hrest
        refine ⟨t', ⟨_, t₁, hrun₁, ?_⟩, rfl⟩
        simp only [Outcome.leaving, hx, if_true]
        exact hrun₂
      | false =>
        obtain ⟨rfl, rfl⟩ := (hforeign x ⟨_, _, hP⟩ hx _ _ _).mp hrest
        refine ⟨t₁, ⟨_, t₁, hrun₁, ?_⟩, rfl⟩
        simp [Outcome.leaving, hx]
    | normal | exited =>
      obtain ⟨rfl, rfl⟩ := hrest
      exact ⟨t₁, ⟨_, t₁, hrun₁, rfl, rfl⟩, rfl⟩
    | broke | continued =>
      obtain ⟨rfl, rfl⟩ := hrest
      refine ⟨t₁, ⟨_, t₁, hrun₁, ?_⟩, rfl⟩
      cases loop <;> simp [Outcome.leaving]

end Lowers

/-- A chain of handlers from a state in which none of them was taken, up to a state that says whether
one was. -/
def ChainLowers (result : σ → ρ) (loop : Option Nat) (n : Nat) (env : List ξ) (chain : Code σ ξ ρ)
    (P : Bool → σ → Outcome ξ → σ → Prop) : Prop :=
  ∀ t, t.handled n = false → ∀ b e v,
    (∃ t', chain.Runs env none t e t' ∧ t'.vars = v ∧ t'.handled n = b) ↔
      ∃ o, P b t.vars o v ∧ e = o.leaving result loop v

section
variable {loop : Option Nat} {n : Nat} {x : ξ} {env : List ξ} {code rest chain : Code σ ξ ρ}
  {P : Bool → σ → Outcome ξ → σ → Prop} {Q : σ → Outcome ξ → σ → Prop}

theorem chainLowers_skip : ChainLowers result loop n env .skip fun b s o s' =>
    b = false ∧ o = .normal ∧ s' = s := by
  intro t ht b e v
  constructor
  · intro h
    obtain ⟨t', ⟨rfl, rfl⟩, rfl, rfl⟩ := h
    exact ⟨.normal, ⟨ht, rfl, rfl⟩, rfl⟩
  · intro h
    obtain ⟨o, ⟨rfl, rfl, rfl⟩, rfl⟩ := h
    exact ⟨t, ⟨rfl, rfl⟩, rfl, ht⟩

theorem chainLowers_handled (h : Lowers result loop env code Q) (hkeeps : code.Atoms (KeepsFlag n)) :
    ChainLowers result loop n env (.seq (setHandled n true) code) fun b s o s' =>
      b = true ∧ Q s o s' := by
  intro t _ b e v
  have hset : ∀ e t', (Unwinding.seq (setHandled n true) code).Runs env none t e t' ↔
      code.Runs env none { t with handled := Function.update t.handled n true } e t' := by
    intro e t'
    rw [Unwinding.seq_runs (fun l s s' hrun => by cases hrun.1)]
    constructor
    · intro hrun
      obtain ⟨t₁, ⟨-, rfl⟩, hrun⟩ | ⟨he, hrun⟩ := hrun
      · exact hrun
      · exact absurd hrun.1 he
    · exact fun hrun => .inl ⟨_, ⟨rfl, rfl⟩, hrun⟩
  have hflag : ∀ {e t'}, (Unwinding.seq (setHandled n true) code).Runs env none t e t' →
      t'.handled n = true := by
    intro e t' hrun
    have hrelated := Unwinding.Runs.related (R := KeepsFlag n) (fun _ => rfl)
      (fun h₁ h₂ => h₂.trans h₁) hkeeps ((hset e t').mp hrun)
    rw [hrelated]
    exact Function.update_self ..
  constructor
  · intro hrun
    obtain ⟨t', hrun, rfl, rfl⟩ := hrun
    obtain ⟨o, hQ, ho⟩ := h.run ((hset e t').mp hrun)
    exact ⟨o, ⟨hflag hrun, hQ⟩, ho⟩
  · intro hrun
    obtain ⟨o, ⟨rfl, hQ⟩, rfl⟩ := hrun
    obtain ⟨t', hrun, rfl⟩ := h.exists_run
      (t := { t with handled := Function.update t.handled n true }) hQ
    exact ⟨t', (hset _ t').mpr hrun, rfl, hflag ((hset _ t').mpr hrun)⟩

theorem chainLowers_handler (hbody : Lowers result loop (x :: env) code Q)
    (hkeeps : code.Atoms (KeepsFlag n)) (hrest : ChainLowers result loop n (x :: env) rest P)
    (cls : κ) : ChainLowers result loop n (x :: env) (emitHandler classes n cls code rest)
      fun b s o s' => if classes.instanceOf cls x then b = true ∧ Q s o s' else P b s o s' := by
  intro t ht b e v
  have htest : caughtTest (classes.instanceOf cls) (x :: env) t =
      (.ok (classes.instanceOf cls x), t) := rfl
  simp only [emitHandler, Unwinding.branch_runs htest]
  cases classes.instanceOf cls x with
  | true => exact chainLowers_handled hbody hkeeps t ht b e v
  | false => exact hrest t ht b e v

theorem rethrow_runs (n : Nat) (t t' : Frame σ) (e : Leaving LoopLabel ρ ξ) :
    (Unwinding.branch (fun _ t => (.ok (!t.handled n), t)) .rethrow .skip : Code σ ξ ρ).Runs
      (x :: env) none t e t' ↔ e = (if t.handled n then .normal else .thrown x) ∧ t' = t := by
  have htest : (fun (_ : List ξ) (t : Frame σ) => ((.ok (!t.handled n), t) : Except ξ Bool × _))
      (x :: env) t = (.ok (!t.handled n), t) := rfl
  rw [Unwinding.branch_runs htest]
  cases t.handled n with
  | true => exact Iff.rfl
  | false => exact Iff.rfl

theorem lowers_handled (h : ChainLowers result loop n (x :: env) chain P)
    (hlabels : chain.labels = []) (hP : ∀ s o s', P false s o s' → o = .normal) :
    Lowers result loop (x :: env) (emitHandled n chain) fun s o s' =>
      P true s o s' ∨ P false s .normal s' ∧ o = .raised x := by
  intro t e v
  let t₀ : Frame σ := { t with handled := Function.update t.handled n false }
  have ht₀ : t₀.handled n = false := Function.update_self ..
  have hruns : ∀ t', (emitHandled n chain).Runs (x :: env) none t e t' ↔
      (∃ t₁, chain.Runs (x :: env) none t₀ .normal t₁ ∧
        e = (if t₁.handled n then .normal else .thrown x) ∧ t' = t₁) ∨
      e ≠ .normal ∧ chain.Runs (x :: env) none t₀ e t' := by
    intro t'
    have hseq {t₁ : Frame σ} := @Unwinding.seq_runs _ _ _ _ _ (x :: env) chain
      (.branch (fun _ t => (.ok (!t.handled n), t)) .rethrow .skip) t₁ t' e
      (fun l _ _ _ => by simp [hlabels, Unwinding.labels])
    rw [emitHandled, Unwinding.Runs, Unwinding.seq_runs (fun l s s' hrun => by cases hrun.1)]
    simp only [hseq, rethrow_runs]
    constructor
    · intro hrun
      obtain ⟨t₁, ⟨-, rfl⟩, hrun⟩ | ⟨he, hrun⟩ := hrun
      · exact hrun
      · exact absurd hrun.1 he
    · exact fun hrun => .inl ⟨t₀, ⟨rfl, rfl⟩, hrun⟩
  simp only [hruns]
  constructor
  · intro hrun
    obtain ⟨t', ⟨t₁, hchain, he, rfl⟩ | ⟨he, hchain⟩, rfl⟩ := hrun
    · obtain ⟨o, ho, hnormal⟩ := (h t₀ ht₀ (t'.handled n) .normal t'.vars).mp ⟨t', hchain, rfl, rfl⟩
      rw [leaving_eq_normal.mp hnormal.symm] at ho
      cases hb : t'.handled n with
      | true =>
        rw [hb] at ho he
        exact ⟨.normal, .inl ho, he⟩
      | false =>
        rw [hb] at ho he
        exact ⟨.raised x, .inr ⟨ho, rfl⟩, he⟩
    · obtain ⟨o, ho, rfl⟩ := (h t₀ ht₀ (t'.handled n) e t'.vars).mp ⟨t', hchain, rfl, rfl⟩
      cases hb : t'.handled n with
      | true =>
        rw [hb] at ho
        exact ⟨o, .inl ho, rfl⟩
      | false =>
        rw [hb] at ho
        exact absurd (leaving_eq_normal.mpr (hP _ _ _ ho)) he
  · intro hrun
    obtain ⟨o, ho | ⟨ho, rfl⟩, rfl⟩ := hrun
    · obtain ⟨t', hchain, rfl, hb⟩ := (h t₀ ht₀ true _ v).mpr ⟨o, ho, rfl⟩
      by_cases hnormal : o = .normal
      · subst hnormal
        exact ⟨t', .inl ⟨t', hchain, by simp [hb, Outcome.leaving], rfl⟩, rfl⟩
      · exact ⟨t', .inr ⟨mt leaving_eq_normal.mp hnormal, hchain⟩, rfl⟩
    · obtain ⟨t', hchain, rfl, hb⟩ := (h t₀ ht₀ false _ v).mpr ⟨.normal, ho, rfl⟩
      exact ⟨t', .inl ⟨t', hchain, by simp [hb, Outcome.leaving], rfl⟩, rfl⟩

end

theorem lowers_return (loop : Option Nat) (env : List ξ) :
    Lowers result loop env (.ret fun t => result t.vars) fun s o s' => o = .exited ∧ s' = s := by
  refine .of_step (fun t => (.returned (result t.vars), t)) (fun _ _ _ => Iff.rfl) fun t e v => ?_
  constructor
  · intro h
    obtain ⟨o, ⟨rfl, rfl⟩, rfl⟩ := h
    exact ⟨rfl, rfl⟩
  · intro h
    obtain ⟨rfl, rfl⟩ := h
    exact ⟨.exited, ⟨rfl, rfl⟩, rfl⟩

/-! Statements whose cleanups settle and whose handlers match what their clauses take. -/

variable (result)

/-- Behind a run of the body the cleanup comes to its end, and behind `exit` it leaves the result as
it is. -/
def SettledBy (body cleanup : Stmt σ ξ κ) : Prop :=
  ∀ env s o s₁ o₂ s₂, body.Runs classes env s o s₁ → cleanup.Runs classes env s₁ o₂ s₂ →
    o₂ = .normal ∧ (o = .exited → result s₂ = result s₁)

omit result in
/-- What the body raises for a handler is thrown as an exception. -/
def CaughtBy (body : Stmt σ ξ κ) (handlers : Handlers σ ξ κ) : Prop :=
  ∀ env x s s₁, body.Runs classes env s (.raised x) s₁ → handlers.accepts classes x = true →
    classes.isException x = true

omit result in
theorem CaughtBy.unmatched {classes : ExceptionClasses ξ κ} {body : Stmt σ ξ κ}
    {handlers : Handlers σ ξ κ} (h : CaughtBy classes body handlers) {env : List ξ} {x : ξ}
    (hraised : ∃ s s₁, body.Runs classes env s (.raised x) s₁)
    (hx : classes.isException x = false) : handlers.accepts classes x = false := by
  obtain ⟨s, s₁, hraised⟩ := hraised
  rw [Bool.eq_false_iff]
  intro haccepts
  rw [h env x s s₁ hraised haccepts] at hx
  cases hx

mutual

/-- Every cleanup settles, what is raised for a handler is thrown as an exception, and `raise`
alone stands in a handler. -/
def Stmt.Clean : Stmt σ ξ κ → Bool → Prop
  | .reraise, handling => handling = true
  | .sequence first second, handling => first.Clean handling ∧ second.Clean handling
  | .compound body, handling => body.Clean handling
  | .ifStmt _ yes no, handling => yes.Clean handling ∧ no.Clean handling
  | .whileStmt _ body, handling => body.Clean handling
  | .repeatStmt body _, handling => body.Clean handling
  | .tryFinally body cleanup, handling => body.Clean handling ∧ cleanup.Clean handling ∧
      SettledBy classes result body cleanup
  | .tryExcept body otherwise, handling => body.Clean handling ∧ otherwise.Clean true
  | .tryOn body handlers, handling =>
    body.Clean handling ∧ handlers.Clean ∧ CaughtBy classes body handlers
  | .tryOnElse body handlers otherwise, handling =>
    body.Clean handling ∧ handlers.Clean ∧ otherwise.Clean true ∧ CaughtBy classes body handlers
  | _, _ => True

def Handlers.Clean : Handlers σ ξ κ → Prop
  | .last _ body => body.Clean true
  | .more _ body rest => body.Clean true ∧ rest.Clean

end

theorem emitHandlers_labels (n : Nat) (handlers : Handlers σ ξ κ) (loop : Option Nat) (c : Counters)
    (final : Code σ ξ ρ) : ((emitHandlers classes result n handlers loop c).1 final).labels = [] := by
  cases handlers <;> rfl

mutual

theorem emitStmt_lowers (s : Stmt σ ξ κ) {handling : Bool} (hs : s.Clean classes result handling)
    {loop : Option Nat} {c : Counters} (hloop : ∀ n ∈ loop, n ≤ c.loopLabel) {env : List ξ}
    (henv : handling = true → env ≠ []) :
    Lowers result loop env (emitStmt classes result s loop c).1 (s.Runs classes env) := by
  cases s with
  | empty =>
    exact .of_step (fun t => (.normal, t)) (fun _ _ _ => Iff.rfl)
      (by simp [Stmt.Runs, Outcome.leaving, and_comm])
  | action run =>
    refine .of_step (fun t => (.ofThrown (run env t.vars).1, { t with vars := (run env t.vars).2 }))
      (fun _ _ _ => Iff.rfl) fun t e v => ?_
    simp only [Stmt.Runs]
    cases (run env t.vars).1 <;>
      simp [Outcome.ofRaised, Outcome.leaving, Leaving.ofThrown, and_comm]
  | breakStmt =>
    cases loop with
    | none =>
      exact .of_step (fun t => (.broke, t)) (fun _ _ _ => Iff.rfl)
        (by simp [Stmt.Runs, Outcome.leaving, and_comm])
    | some n =>
      exact .of_step (fun t => (.jumped (.brk n), t)) (fun _ _ _ => Iff.rfl)
        (by simp [Stmt.Runs, Outcome.leaving, and_comm])
  | continueStmt =>
    cases loop with
    | none =>
      exact .of_step (fun t => (.continued, t)) (fun _ _ _ => Iff.rfl)
        (by simp [Stmt.Runs, Outcome.leaving, and_comm])
    | some n =>
      exact .of_step (fun t => (.jumped (.cont n), t)) (fun _ _ _ => Iff.rfl)
        (by simp [Stmt.Runs, Outcome.leaving, and_comm])
  | exit => exact lowers_return loop env
  | exitValue store =>
    have hstore : Lowers result loop env (.perform (evaluate store)) fun s o s' =>
        o = .ofRaised (store env s).1 ∧ s' = (store env s).2 := by
      refine .of_step (fun t => (.ofThrown (store env t.vars).1,
        { t with vars := (store env t.vars).2 })) (fun _ _ _ => Iff.rfl) fun t e v => ?_
      cases (store env t.vars).1 <;>
        simp [Outcome.ofRaised, Outcome.leaving, Leaving.ofThrown, and_comm]
    have hreturn : Lowers result loop env (.ret fun t => result t.vars) _ := lowers_return loop env
    refine (hstore.seq hreturn hloop (by simp [Unwinding.labels])
      (by simp [Unwinding.labels])).congr fun s o s' => ?_
    simp only [Stmt.Runs]
    cases (store env s).1 with
    | none => cases o <;> simp [Outcome.ofRaised]
    | some x => cases o <;> simp [Outcome.ofRaised]
  | raise value =>
    exact .of_step (fun t => (.thrown (value env t.vars).1, { t with vars := (value env t.vars).2 }))
      (fun _ _ _ => Iff.rfl) (by simp [Stmt.Runs, Outcome.leaving, and_comm])
  | reraise =>
    cases env with
    | nil => exact absurd rfl (henv hs)
    | cons x env =>
      exact .of_step (fun t => (.thrown x, t)) (fun _ _ _ => Iff.rfl)
        (by simp [Stmt.Runs, Outcome.leaving, and_comm])
  | sequence first second =>
    have hc := emitStmt_counters classes result first loop c
    refine (emitStmt_lowers first hs.1 hloop henv).seq
      (emitStmt_lowers second hs.2 (fun n hn => Nat.le_trans (hloop n hn) hc.2) henv) hloop
      (emitStmt_labels classes result first loop c) fun l hl => ?_
    exact Nat.lt_of_le_of_lt hc.2 (emitStmt_labels classes result second loop _ l hl)
  | compound body => exact emitStmt_lowers body hs hloop henv
  | ifStmt cond yes no =>
    have hc := emitStmt_counters classes result yes loop c
    exact (emitStmt_lowers yes hs.1 hloop henv).block.branch
      (emitStmt_lowers no hs.2 (fun n hn => Nat.le_trans (hloop n hn) hc.2) henv).block cond
  | whileStmt cond body =>
    have hbody := @emitStmt_lowers body handling hs (some (c.loopLabel+1))
      { c with loopLabel := c.loopLabel+1 } (by simp) env henv
    exact hbody.whileDo (emitStmt_labels classes result body _ _) cond
  | repeatStmt body cond =>
    have hbody := @emitStmt_lowers body handling hs (some (c.loopLabel+1))
      { c with loopLabel := c.loopLabel+1 } (by simp) env henv
    exact hbody.doWhile (emitStmt_labels classes result body _ _) cond
  | tryFinally body cleanup =>
    have hc := emitStmt_counters classes result cleanup loop { c with tryStmt := c.tryStmt+1 }
    have hcleanup := @emitStmt_lowers cleanup handling hs.2.1 loop
      { c with tryStmt := c.tryStmt+1 } hloop env henv
    have hbody := @emitStmt_lowers body handling hs.1 loop _
      (fun n hn => Nat.le_trans (hloop n hn) hc.2) env henv
    exact (hbody.guarded hcleanup (hs.2.2 env)).block
  | tryExcept body otherwise =>
    have hc := emitStmt_counters classes result body loop { c with tryStmt := c.tryStmt+1 }
    have hotherwise (x : ξ) := @emitStmt_lowers otherwise true hs.2 loop _
      (fun n hn => Nat.le_trans (hloop n hn) hc.2) (x :: env) (by simp)
    have hbody := @emitStmt_lowers body handling hs.1 loop
      { c with tryStmt := c.tryStmt+1 } hloop env henv
    exact hbody.block.attempt (fun x _ _ => (hotherwise x).block) (by simp)
  | tryOn body handlers =>
    have hc := emitStmt_counters classes result body loop { c with tryStmt := c.tryStmt+1 }
    have hloop' := fun n hn => Nat.le_trans (hloop n hn) hc.2
    have hbody := @emitStmt_lowers body handling hs.1 loop
      { c with tryStmt := c.tryStmt+1 } hloop env henv
    have hhandler : ∀ x, (∃ s s₁, body.Runs classes env s (.raised x) s₁) →
        classes.isException x = true → Lowers result loop (x :: env)
        (emitHandled (c.tryStmt+1) ((emitHandlers classes result (c.tryStmt+1) handlers loop
          (emitStmt classes result body loop { c with tryStmt := c.tryStmt+1 }).2).1 .skip))
        fun s o s' => if handlers.accepts classes x then handlers.Runs classes x env s o s'
          else o = .raised x ∧ s' = s := by
      intro x _ _
      have hchain := emitHandlers_lowers handlers hs.2.1 hc.1 hloop'
        (@chainLowers_skip _ _ _ result loop (c.tryStmt+1) (x :: env))
      refine (lowers_handled hchain (emitHandlers_labels ..) ?_).congr fun s o s' => ?_
      · intro s o s' h
        split at h
        · cases h.1
        · exact h.2.1
      · by_cases hx : handlers.accepts classes x = true
        · simp [hx]
        · simp [hx, and_comm]
    refine hbody.block.attempt hhandler fun x hraised hx s o s' => ?_
    simp [hs.2.2.unmatched hraised hx]
  | tryOnElse body handlers otherwise =>
    have hc := emitStmt_counters classes result body loop { c with tryStmt := c.tryStmt+1 }
    have hc₂ := emitHandlers_counters classes result (c.tryStmt+1) handlers loop
      (emitStmt classes result body loop { c with tryStmt := c.tryStmt+1 }).2
    have hc₃ := emitStmt_counters classes result otherwise loop (emitHandlers classes result
      (c.tryStmt+1) handlers loop
        (emitStmt classes result body loop { c with tryStmt := c.tryStmt+1 }).2).2
    have hloop₁ := fun n hn => Nat.le_trans (hloop n hn) hc.2
    have hloop₂ := fun n hn => Nat.le_trans (hloop₁ n hn) hc₂.2
    have hloop₃ := fun n hn => Nat.le_trans (hloop₂ n hn) hc₃.2
    have hbody := @emitStmt_lowers body handling hs.1 loop
      { c with tryStmt := c.tryStmt+1 } hloop env henv
    refine hbody.block.attempt (fun x hraised _ => ?_) (by simp)
    have hunmatched := @emitStmt_lowers otherwise true hs.2.2.1 loop _ hloop₂ (x :: env) (by simp)
    have hforeign := @emitStmt_lowers otherwise true hs.2.2.1 loop _ hloop₃ (x :: env) (by simp)
    have hchain := emitHandlers_lowers handlers hs.2.1 hc.1 hloop₁ (chainLowers_handled hunmatched
      (emitStmt_keeps classes result otherwise loop (Nat.le_trans hc.1 hc₂.1)))
    have hhandled := lowers_handled hchain (emitHandlers_labels ..) (by
      intro s o s' h
      split at h
      · cases h.1
      · cases h.1)
    intro t e v
    have htest : caughtTest classes.isException (x :: env) t =
        (.ok (classes.isException x), t) := rfl
    simp only [Unwinding.branch_runs htest]
    cases hx : classes.isException x with
    | true =>
      refine (hhandled t e v).trans ?_
      by_cases ha : handlers.accepts classes x = true <;> simp [ha]
    | false =>
      refine (hforeign.block t e v).trans ?_
      simp [hs.2.2.2.unmatched hraised hx]

theorem emitHandlers_lowers (handlers : Handlers σ ξ κ) (hs : handlers.Clean classes result)
    {loop : Option Nat} {n : Nat} {c : Counters} (hn : n ≤ c.tryStmt)
    (hloop : ∀ n ∈ loop, n ≤ c.loopLabel) {x : ξ} {env : List ξ} {final : Code σ ξ ρ}
    {P : Bool → σ → Outcome ξ → σ → Prop}
    (hfinal : ChainLowers result loop n (x :: env) final P) :
    ChainLowers result loop n (x :: env)
      ((emitHandlers classes result n handlers loop c).1 final) fun b s o s' =>
        if handlers.accepts classes x then b = true ∧ handlers.Runs classes x env s o s'
        else P b s o s' := by
  cases handlers with
  | last cls body =>
    exact chainLowers_handler classes (emitStmt_lowers body hs hloop (by simp))
      (emitStmt_keeps classes result body loop hn) hfinal cls
  | more cls body rest =>
    have hc := emitStmt_counters classes result body loop c
    have hrest := emitHandlers_lowers rest hs.2 (Nat.le_trans hn hc.1)
      (fun n hn => Nat.le_trans (hloop n hn) hc.2) hfinal
    have hchain := chainLowers_handler classes (emitStmt_lowers body hs.1 hloop (by simp))
      (emitStmt_keeps classes result body loop hn) hrest cls
    intro t ht b e v
    refine Iff.trans (hchain t ht b e v) ?_
    simp only [Handlers.accepts, Handlers.Runs]
    by_cases hx : classes.instanceOf cls x = true <;> simp [hx]

end

/-- What is thrown as no exception, as the runtime throws a division by zero, passes the handlers of
its class. -/
theorem tryOn_escapes {body : Stmt σ ξ κ} {handling : Bool}
    (hs : body.Clean classes result handling) (handlers : Handlers σ ξ κ) {loop : Option Nat}
    {c : Counters} (hloop : ∀ n ∈ loop, n ≤ c.loopLabel) {env : List ξ}
    (henv : handling = true → env ≠ []) {t : Frame σ} {x : ξ} {v : σ}
    (hraised : body.Runs classes env t.vars (.raised x) v) (hx : classes.isException x = false) :
    ∃ t', (emitStmt classes result (.tryOn body handlers) loop c).1.Runs env none t (.thrown x) t' ∧
      t'.vars = v := by
  have hbody := @emitStmt_lowers _ _ _ _ classes result body handling hs loop
    { c with tryStmt := c.tryStmt+1 } hloop env henv
  obtain ⟨t', hrun, rfl⟩ := hbody.block.exists_run hraised
  refine ⟨t', ⟨.thrown x, t', hrun, ?_⟩, rfl⟩
  dsimp only
  rw [hx]
  exact ⟨rfl, rfl⟩

theorem emitRoutine_lowers {body : Stmt σ ξ κ} (hs : body.Clean classes result false)
    (c : Counters) : Lowers result none [] (emitRoutine classes result body c) fun s o s' =>
      (body.Runs classes [] s .normal s' ∧ o = .exited) ∨
        o ≠ .normal ∧ body.Runs classes [] s o s' := by
  have hbody := @emitStmt_lowers _ _ _ _ classes result body false hs none c (by simp) [] (by simp)
  have hlabels := emitStmt_labels classes result body none c
  refine (hbody.seq (lowers_return none []) (by simp) hlabels (by simp [Unwinding.labels])).congr
    fun s o s' => or_congr_left ?_
  constructor
  · intro h
    obtain ⟨s₁, hrun, rfl, rfl⟩ := h
    exact ⟨hrun, rfl⟩
  · intro h
    exact ⟨s', h.1, h.2, rfl⟩

end

/-! `try try raise E except on E do exit(7) end finally n := 1 end` -/

def handledExit : Stmt (Int × Int) Unit Unit :=
  .tryFinally
    (.tryOn (.raise fun _ s => ((), s)) (.last () (.exitValue fun _ s => (none, (7, s.2)))))
    (.action fun _ s => (none, (s.1, 1)))

def oneClass : ExceptionClasses Unit Unit := ⟨fun _ => true, fun _ _ => true⟩

theorem handledExit_clean : handledExit.Clean oneClass Prod.fst false := by
  refine ⟨⟨trivial, trivial, fun _ _ _ _ _ _ => rfl⟩, trivial, fun env s o s₁ o₂ s₂ _ hcleanup => ?_⟩
  obtain ⟨rfl, rfl⟩ := hcleanup
  exact ⟨rfl, fun _ => rfl⟩

end Tp2cc.Control
