import Tp2cc.Machine.Effect

set_option autoImplicit false

namespace Tp2cc
open Machine

inductive SlotEvent (Slot α : Type) where
  | evaluated (name : Nat)
  | allocated (slot : Slot)
  | called (slot : Slot) (method : String) (args : List α)
  | released (slot : Slot)
  deriving DecidableEq

structure SlotRun (σ Slot α : Type) where
  state : σ
  events : List (SlotEvent Slot α)
  deriving DecidableEq

/-- `p_new`, the methods and `p_dispose`, which may raise. -/
structure SlotOperations (σ Slot α : Type) where
  allocate : Slot → σ → Option σ
  call : Slot → String → List α → σ → Option σ
  release : Slot → σ → Option σ

inductive StorageAddressForm where
  | none | typedStoragePointer | rawBytePointer
  deriving DecidableEq

structure SlotDesignator (σ Slot : Type) where
  bytewise : Bool
  ptrForm : StorageAddressForm
  address : Effectful σ Slot
  backing : Option (Effectful σ Unit)

/-- An expression for the slot, which may have the address of the viewed object as a second
argument. -/
structure CxxSlot (σ Slot : Type) where
  address : Effectful σ Slot
  backing : Option (Effectful σ Unit)

inductive CxxSlotStmt (σ Slot α : Type) where
  | pNew (p : CxxSlot σ Slot)
  | call (p : CxxSlot σ Slot) (method : String) (args : List (Effectful σ α))
  | pDispose (p : CxxSlot σ Slot)

/-- The arguments of a constructor are those of its call plan. -/
inductive NewDispose (σ Slot α : Type) where
  | new (d : SlotDesignator σ Slot) (ctor : Option (String × List (Effectful σ α)))
  | dispose (d : SlotDesignator σ Slot) (dtor : Option (String × List (Effectful σ α)))

section
variable {σ Slot α β : Type}

def storageDesignatorTypedLvalue (d : SlotDesignator σ Slot) : CxxSlot σ Slot :=
  if d.bytewise ∧ d.ptrForm = .typedStoragePointer then ⟨d.address, none⟩
  else ⟨d.address, d.backing⟩

def emitNewDispose : NewDispose σ Slot α → List (CxxSlotStmt σ Slot α)
  | .new d ctor =>
    let p : CxxSlot σ Slot := ⟨d.address, none⟩
    .pNew (if d.bytewise then storageDesignatorTypedLvalue d else p) ::
      match ctor with
      | some (method,args) => [.call p method args]
      | none => []
  | .dispose d dtor =>
    let p : CxxSlot σ Slot := ⟨d.address, none⟩
    (match dtor with
      -- the arguments of the destructor are not looked at
      | some (method,_) => [.call p method []]
      | none => []) ++ [.pDispose p]

namespace SlotRun

def evaluate (e : Effectful σ β) (r : SlotRun σ Slot α) : Option (β × SlotRun σ Slot α) :=
  (e.eval ⟨r.state, []⟩).map fun p => (p.1,⟨p.2.state, r.events ++ p.2.log.map .evaluated⟩)

def evaluateAll (es : List (Effectful σ β)) (r : SlotRun σ Slot α) :
    Option (List β × SlotRun σ Slot α) :=
  (Effectful.evalAll es ⟨r.state, []⟩).map fun p =>
    (p.1,⟨p.2.state, r.events ++ p.2.log.map .evaluated⟩)

def perform (op : σ → Option σ) (event : SlotEvent Slot α) (r : SlotRun σ Slot α) :
    Option (SlotRun σ Slot α) :=
  (op r.state).map fun state => ⟨state, r.events ++ [event]⟩

end SlotRun

def CxxSlot.eval (p : CxxSlot σ Slot) (r : SlotRun σ Slot α) :
    Option (Slot × SlotRun σ Slot α) := do
  let (slot,r) ← r.evaluate p.address
  match p.backing with
  | none => return (slot,r)
  | some backing =>
    let (_,r) ← r.evaluate backing
    return (slot,r)

def CxxSlotStmt.exec (ops : SlotOperations σ Slot α) (r : SlotRun σ Slot α) :
    CxxSlotStmt σ Slot α → Option (SlotRun σ Slot α)
  | .pNew p => do
    let (slot,r) ← p.eval r
    r.perform (ops.allocate slot) (.allocated slot)
  | .call p method args => do
    let (slot,r) ← p.eval r
    let (vs,r) ← r.evaluateAll args
    r.perform (ops.call slot method vs) (.called slot method vs)
  | .pDispose p => do
    let (slot,r) ← p.eval r
    r.perform (ops.release slot) (.released slot)

/-- The slot is found once; it is allocated before the constructor and released behind the
destructor. -/
def NewDispose.run (ops : SlotOperations σ Slot α) (r : SlotRun σ Slot α) :
    NewDispose σ Slot α → Option (SlotRun σ Slot α)
  | .new d ctor => do
    let (slot,r) ← r.evaluate d.address
    let r ← r.perform (ops.allocate slot) (.allocated slot)
    match ctor with
    | none => return r
    | some (method,args) =>
      let (vs,r) ← r.evaluateAll args
      r.perform (ops.call slot method vs) (.called slot method vs)
  | .dispose d dtor => do
    let (slot,r) ← r.evaluate d.address
    match dtor with
    | none => r.perform (ops.release slot) (.released slot)
    | some (method,args) =>
      let (vs,r) ← r.evaluateAll args
      let r ← r.perform (ops.call slot method vs) (.called slot method vs)
      r.perform (ops.release slot) (.released slot)

/-- The lvalue that `p_new` gets evaluates nothing but the address. -/
def SlotDesignator.Plain (d : SlotDesignator σ Slot) : Prop :=
  d.bytewise = true → d.ptrForm ≠ .typedStoragePointer → ∀ b ∈ d.backing, b.names = []

/-- With a method to call, the slot has to be a variable, and a destructor has no arguments. -/
def NewDispose.Once : NewDispose σ Slot α → Prop
  | .new d none => d.Plain
  | .new d (some _) => d.Plain ∧ d.address.names = []
  | .dispose _ none => True
  | .dispose d (some (_,args)) => d.address.names = [] ∧ args = []

namespace SlotRun
variable {r r' : SlotRun σ Slot α}

theorem evaluate_events {e : Effectful σ β} {v : β} (h : r.evaluate e = some (v,r')) :
    r'.events = r.events ++ e.names.map .evaluated := by
  obtain ⟨⟨w, t⟩, ht, heq⟩ := Option.map_eq_some_iff.mp h
  cases heq
  simp [Effectful.eval_log ht]

theorem evaluateAll_events {es : List (Effectful σ β)} {vs : List β}
    (h : r.evaluateAll es = some (vs,r')) :
    r'.events = r.events ++ (es.flatMap Effectful.names).map .evaluated ∧
      vs.length = es.length := by
  obtain ⟨⟨w, t⟩, ht, heq⟩ := Option.map_eq_some_iff.mp h
  cases heq
  exact ⟨by simp [Effectful.evalAll_log ht], Effectful.evalAll_values ht⟩

theorem perform_events {op : σ → Option σ} {event : SlotEvent Slot α}
    (h : r.perform op event = some r') : r'.events = r.events ++ [event] := by
  obtain ⟨state, -, rfl⟩ := Option.map_eq_some_iff.mp h
  rfl

theorem evaluate_variable (Slot α : Type) {e : Effectful σ β} (h : e.names = []) :
    ∃ v, ∀ r : SlotRun σ Slot α, r.evaluate e = some (v,r) := by
  cases e with
  | const v => exact ⟨v, fun r => by simp [evaluate, Effectful.eval]⟩
  | code name run => cases h

theorem evaluateAll_nil (r : SlotRun σ Slot α) :
    r.evaluateAll ([] : List (Effectful σ β)) = some ([],r) := by
  simp [evaluateAll, Effectful.evalAll]

end SlotRun

namespace CxxSlot
variable {r r₁ r' : SlotRun σ Slot α} {p : CxxSlot σ Slot} {slot slot' : Slot}

def backingNames (p : CxxSlot σ Slot) : List Nat :=
  match p.backing with
  | none => []
  | some b => b.names

theorem eval_events (h : p.eval r = some (slot,r')) :
    r'.events = r.events ++ (p.address.names ++ p.backingNames).map .evaluated := by
  obtain ⟨⟨slot, r₁⟩, haddress, h⟩ := Option.bind_eq_some_iff.mp h
  have hevents := SlotRun.evaluate_events haddress
  cases hb : p.backing with
  | none =>
    simp only [hb] at h
    cases h
    simpa [backingNames, hb] using hevents
  | some b =>
    simp only [hb] at h
    obtain ⟨⟨u, r₂⟩, hbacking, h⟩ := Option.bind_eq_some_iff.mp h
    cases h
    rw [SlotRun.evaluate_events hbacking, hevents]
    simp [backingNames, hb]

theorem eval_of_backing (hb : p.backingNames = []) (h : r.evaluate p.address = some (slot,r₁)) :
    p.eval r = some (slot,r₁) := by
  unfold eval
  cases hback : p.backing with
  | none => simp [h]
  | some b =>
    rw [backingNames, hback] at hb
    obtain ⟨u, hu⟩ := SlotRun.evaluate_variable Slot α hb
    simp [h, hu]

end CxxSlot

def SlotDesignator.newSlot (d : SlotDesignator σ Slot) : CxxSlot σ Slot :=
  if d.bytewise then storageDesignatorTypedLvalue d else ⟨d.address, none⟩

theorem SlotDesignator.newSlot_address (d : SlotDesignator σ Slot) :
    d.newSlot.address = d.address := by
  unfold newSlot storageDesignatorTypedLvalue
  split
  · split <;> rfl
  · rfl

theorem SlotDesignator.plain_iff (d : SlotDesignator σ Slot) :
    d.Plain ↔ d.newSlot.backingNames = [] := by
  unfold Plain newSlot storageDesignatorTypedLvalue CxxSlot.backingNames
  cases d.bytewise with
  | false => simp
  | true =>
    by_cases hform : d.ptrForm = .typedStoragePointer
    · simp [hform]
    · cases hb : d.backing <;> simp [hform]

section
variable {ops : SlotOperations σ Slot α} {r r' : SlotRun σ Slot α} {d : SlotDesignator σ Slot}
  {method : String} {args : List (Effectful σ α)}

theorem emit_new_iff (h : (NewDispose.new d none).run ops r = some r') :
    (emitNewDispose (.new d none)).foldlM (CxxSlotStmt.exec ops) r = some r' ↔ d.Plain := by
  obtain ⟨⟨slot, r₁⟩, haddress, h⟩ := Option.bind_eq_some_iff.mp h
  obtain ⟨r₂, halloc, h⟩ := Option.bind_eq_some_iff.mp h
  cases h
  have hevents := SlotRun.perform_events halloc
  rw [SlotRun.evaluate_events haddress] at hevents
  have hstmts : emitNewDispose (.new d (none : Option (String × List (Effectful σ α)))) =
    [.pNew d.newSlot] := rfl
  rw [d.plain_iff, hstmts, List.foldlM_cons]
  constructor
  · intro hrun
    obtain ⟨r₂', hrun, hend⟩ := Option.bind_eq_some_iff.mp hrun
    cases hend
    obtain ⟨⟨slot', r₁'⟩, hslot, hrun⟩ := Option.bind_eq_some_iff.mp hrun
    have hrun := SlotRun.perform_events hrun
    rw [CxxSlot.eval_events hslot, hevents, d.newSlot_address] at hrun
    simpa using congrArg List.length hrun
  · intro hplain
    rw [← d.newSlot_address] at haddress
    simp [CxxSlotStmt.exec, CxxSlot.eval_of_backing hplain haddress, halloc]

theorem emit_newWith_iff (h : (NewDispose.new d (some (method,args))).run ops r = some r') :
    (emitNewDispose (.new d (some (method,args)))).foldlM (CxxSlotStmt.exec ops) r = some r' ↔
      d.Plain ∧ d.address.names = [] := by
  obtain ⟨⟨slot, r₁⟩, haddress, h⟩ := Option.bind_eq_some_iff.mp h
  obtain ⟨r₂, halloc, h⟩ := Option.bind_eq_some_iff.mp h
  obtain ⟨⟨vs, r₃⟩, hargs, hcall⟩ := Option.bind_eq_some_iff.mp h
  have hevents := SlotRun.perform_events hcall
  rw [(SlotRun.evaluateAll_events hargs).1, SlotRun.perform_events halloc,
    SlotRun.evaluate_events haddress] at hevents
  have hstmts : emitNewDispose (.new d (some (method,args))) =
    [.pNew d.newSlot, .call ⟨d.address, none⟩ method args] := rfl
  rw [d.plain_iff, hstmts, List.foldlM_cons]
  constructor
  · intro hrun
    obtain ⟨r₂', hnew, hrun⟩ := Option.bind_eq_some_iff.mp hrun
    obtain ⟨r₄', hrun, hend⟩ := Option.bind_eq_some_iff.mp hrun
    cases hend
    obtain ⟨⟨slot', r₁'⟩, hslot, hnew⟩ := Option.bind_eq_some_iff.mp hnew
    obtain ⟨⟨slot'', r₃'⟩, hagain, hrun⟩ := Option.bind_eq_some_iff.mp hrun
    obtain ⟨⟨vs', r₅'⟩, hargs', hrun⟩ := Option.bind_eq_some_iff.mp hrun
    have hrun := SlotRun.perform_events hrun
    rw [(SlotRun.evaluateAll_events hargs').1, CxxSlot.eval_events hagain,
      SlotRun.perform_events hnew, CxxSlot.eval_events hslot, hevents, d.newSlot_address] at hrun
    have hlength := congrArg List.length hrun
    simp only [List.length_append, List.length_map, List.length_cons] at hlength
    constructor
    · exact List.eq_nil_of_length_eq_zero (by omega)
    · exact List.eq_nil_of_length_eq_zero (by omega)
  · rintro ⟨hplain, hvariable⟩
    obtain ⟨slot', hslot⟩ := SlotRun.evaluate_variable Slot α hvariable
    rw [hslot] at haddress
    cases haddress
    have hnew := CxxSlot.eval_of_backing hplain (d.newSlot_address ▸ hslot r)
    have hagain (r : SlotRun σ Slot α) := CxxSlot.eval_of_backing (p := ⟨_, none⟩) rfl (hslot r)
    simp [CxxSlotStmt.exec, hnew, halloc, hagain, hargs, hcall]

theorem emit_dispose_iff (h : (NewDispose.dispose d none).run ops r = some r') :
    (emitNewDispose (.dispose d none)).foldlM (CxxSlotStmt.exec ops) r = some r' := by
  obtain ⟨⟨slot, r₁⟩, haddress, hrelease⟩ := Option.bind_eq_some_iff.mp h
  simp [emitNewDispose, CxxSlotStmt.exec, CxxSlot.eval, haddress, hrelease]

theorem events_before_call {slot slot' : Slot} {vs vs' : List α} {names : List Nat}
    {tail tail' : List (SlotEvent Slot α)}
    (h : .called slot method vs :: tail =
      names.map SlotEvent.evaluated ++ .called slot' method vs' :: tail') :
    vs = vs' ∧ tail = tail' := by
  cases names with
  | nil =>
    cases h
    exact ⟨rfl, rfl⟩
  | cons name names => cases h

theorem emit_disposeWith_iff
    (h : (NewDispose.dispose d (some (method,args))).run ops r = some r') :
    (emitNewDispose (.dispose d (some (method,args)))).foldlM (CxxSlotStmt.exec ops) r = some r' ↔
      d.address.names = [] ∧ args = [] := by
  obtain ⟨⟨slot, r₁⟩, haddress, h⟩ := Option.bind_eq_some_iff.mp h
  obtain ⟨⟨vs, r₂⟩, hargs, h⟩ := Option.bind_eq_some_iff.mp h
  obtain ⟨r₃, hcall, hrelease⟩ := Option.bind_eq_some_iff.mp h
  obtain ⟨hargsEvents, hvs⟩ := SlotRun.evaluateAll_events hargs
  have hevents := SlotRun.perform_events hrelease
  rw [SlotRun.perform_events hcall, hargsEvents, SlotRun.evaluate_events haddress] at hevents
  have hstmts : emitNewDispose (.dispose d (some (method,args))) =
    [.call ⟨d.address, none⟩ method [], .pDispose ⟨d.address, none⟩] := rfl
  rw [hstmts, List.foldlM_cons]
  constructor
  · intro hrun
    obtain ⟨r₃', hcall', hrun⟩ := Option.bind_eq_some_iff.mp hrun
    obtain ⟨r₅', hrun, hend⟩ := Option.bind_eq_some_iff.mp hrun
    cases hend
    obtain ⟨⟨slot', r₁'⟩, hslot, hcall'⟩ := Option.bind_eq_some_iff.mp hcall'
    obtain ⟨⟨vs', r₂'⟩, hnone, hcall'⟩ := Option.bind_eq_some_iff.mp hcall'
    obtain ⟨⟨slot'', r₄'⟩, hagain, hrun⟩ := Option.bind_eq_some_iff.mp hrun
    rw [SlotRun.evaluateAll_nil] at hnone
    cases hnone
    have hrun := SlotRun.perform_events hrun
    rw [CxxSlot.eval_events hagain, SlotRun.perform_events hcall', CxxSlot.eval_events hslot,
      hevents] at hrun
    simp only [CxxSlot.backingNames, List.append_nil, List.append_assoc, List.append_cancel_left_eq,
      List.cons_append, List.nil_append] at hrun
    obtain ⟨hvalues, htail⟩ := events_before_call hrun.symm
    rw [← hvalues] at hvs
    have hlength := congrArg List.length htail
    simp only [List.length_append, List.length_map, List.length_cons, List.length_nil] at hlength
    constructor
    · exact List.eq_nil_of_length_eq_zero (by omega)
    · exact List.eq_nil_of_length_eq_zero hvs.symm
  · rintro ⟨hvariable, rfl⟩
    obtain ⟨slot', hslot⟩ := SlotRun.evaluate_variable Slot α hvariable
    rw [hslot] at haddress
    cases haddress
    rw [SlotRun.evaluateAll_nil] at hargs
    cases hargs
    simp [CxxSlotStmt.exec, CxxSlot.eval, hslot, SlotRun.evaluateAll_nil, hcall, hrelease]

/-- Where `new` and `dispose` come to an end, the emitted statements do the same exactly when they
name the slot once and the destructor has no arguments. -/
theorem emitNewDispose_iff (ops : SlotOperations σ Slot α) (s : NewDispose σ Slot α)
    (r r' : SlotRun σ Slot α) (h : s.run ops r = some r') :
    (emitNewDispose s).foldlM (CxxSlotStmt.exec ops) r = some r' ↔ s.Once := by
  cases s with
  | new d ctor =>
    cases ctor with
    | none => exact emit_new_iff h
    | some call => exact emit_newWith_iff h
  | dispose d dtor =>
    cases dtor with
    | none => exact iff_of_true (emit_dispose_iff h) trivial
    | some call => exact emit_disposeWith_iff h

end

end

def countingOperations : SlotOperations Nat Nat Nat :=
  ⟨fun _ n => some (n+1), fun _ _ _ n => some (n+1), fun _ n => some (n+1)⟩

def variableSlot : SlotDesignator Nat Nat := ⟨false, .none, .const 7, none⟩

theorem emitNewDispose_variable :
    (emitNewDispose (.new variableSlot (some ("init",[.const 1])))).foldlM
      (CxxSlotStmt.exec countingOperations) ⟨0, []⟩ =
        some ⟨2, [.allocated 7, .called 7 "init" [1]]⟩ ↔
      (NewDispose.new variableSlot (some ("init",[.const 1])) : NewDispose Nat Nat Nat).Once :=
  emitNewDispose_iff countingOperations _ ⟨0, []⟩ _ rfl

/-- `a[next]`, where `next` counts its calls -/
def nextSlot : SlotDesignator Nat Nat := ⟨false, .none, .code 0 fun n => some (n,n+1), none⟩

/-- `new(a[next], init(5))` initialises another slot than it allocates. -/
theorem emitNewDispose_next :
    (NewDispose.new nextSlot (some ("init",[.const 5]))).run countingOperations ⟨0, []⟩ =
        some ⟨3, [.evaluated 0, .allocated 0, .called 0 "init" [5]]⟩ ∧
      (emitNewDispose (.new nextSlot (some ("init",[.const 5])))).foldlM
          (CxxSlotStmt.exec countingOperations) ⟨0, []⟩ =
        some ⟨4, [.evaluated 0, .allocated 0, .evaluated 0, .called 2 "init" [5]]⟩ ∧
      (emitNewDispose (.new nextSlot (some ("init",[.const 5])))).foldlM
          (CxxSlotStmt.exec countingOperations) ⟨0, []⟩ ≠
        (NewDispose.new nextSlot (some ("init",[.const 5]))).run countingOperations ⟨0, []⟩ :=
  ⟨rfl, rfl, by decide⟩

end Tp2cc
