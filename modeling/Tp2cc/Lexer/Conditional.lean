import Tp2cc.Lexer.Directive

/-! What the open conditionals mean: every one keeps the conditions of its branches so far, and
its branch is selected when it is the first whose condition holds. -/
set_option autoImplicit false

namespace Tp2cc

/-- A conditional that is open: when it was opened, and the conditions of its branches up to the
current one, that of an `else` branch being true. -/
structure Conditional where
  opened : Nat
  conditions : List Bool
  elseSeen : Bool

/-- The first branch whose condition holds. -/
def Conditional.selected (c : Conditional) : Option Nat := c.conditions.findIdx? id

def Conditional.current (c : Conditional) : Nat := c.conditions.length-1

def Conditional.Active (c : Conditional) : Prop := c.selected = some c.current

instance (c : Conditional) : Decidable c.Active := inferInstanceAs (Decidable (_ = _))

inductive ConditionalKind where
  | opens
  | elseif
  | else
  | endif
  deriving DecidableEq

def conditionalKind : String → Option ConditionalKind
  | "ifdef" | "ifndef" | "if" | "ifopt" => some .opens
  | "elseif" => some .elseif
  | "else" => some .else
  | "endif" | "ifend" => some .endif
  | _ => none

inductive Switch where
  | overflowChecks
  | rangeChecks
  | typedAddresses
  | longStrings
  deriving DecidableEq

/-- What a directive changes for the conditions behind it. -/
inductive Change where
  | define (name : String) (text : Option String)
  | undef (name : String)
  | switch (s : Switch) (on : Bool)

def changeOf (head : String) (rest : List Char) : Option Change :=
  match head with
  | "define" =>
    let (name, text) := parseMacroDefinition rest
    if lower name = "" then none else some (.define (lower name) text)
  | "undef" => some (.undef (lower (trim rest)))
  | "q+" | "overflowchecks+" => some (.switch .overflowChecks true)
  | "q-" | "overflowchecks-" => some (.switch .overflowChecks false)
  | "r+" | "rangechecks+" => some (.switch .rangeChecks true)
  | "r-" | "rangechecks-" => some (.switch .rangeChecks false)
  | "h+" | "longstrings+" => some (.switch .longStrings true)
  | "h-" | "longstrings-" => some (.switch .longStrings false)
  | "longstrings" =>
    match lower (trim rest) with
    | "on" | "+" => some (.switch .longStrings true)
    | "off" | "-" => some (.switch .longStrings false)
    | _ => none
  -- There are no typed addresses to switch on.
  | "t-" | "typedaddress-" => some (.switch .typedAddresses false)
  | "typedaddress" =>
    if lower (trim rest) = "-" then some (.switch .typedAddresses false) else none
  | _ => none

def switchAsked (rest : List Char) : Option (Switch × Bool) :=
  match lower (trim rest) with
  | "q+" | "overflowchecks+" => some (.overflowChecks, true)
  | "q-" | "overflowchecks-" => some (.overflowChecks, false)
  | "r+" | "rangechecks+" => some (.rangeChecks, true)
  | "r-" | "rangechecks-" => some (.rangeChecks, false)
  | "h+" | "longstrings+" => some (.longStrings, true)
  | "h-" | "longstrings-" => some (.longStrings, false)
  | "t+" => some (.typedAddresses, true)
  | "t-" => some (.typedAddresses, false)
  | _ => none

/-- What conditions are about: the symbols with their texts, and the switches. -/
structure Facts where
  symbols : Symbols
  switches : Switch → Bool

namespace Facts
variable (f : Facts)

def after : Option Change → Facts
  | none => f
  | some (.define name text) => { f with symbols := f.symbols.insert name text }
  | some (.undef name) => { f with symbols := f.symbols.erase name }
  | some (.switch s on) => { f with switches := Function.update f.switches s on }

def holds (head : String) (rest : List Char) : Bool :=
  match head with
  | "ifdef" => decide (lower (trim rest) ∈ f.symbols)
  | "ifndef" => !decide (lower (trim rest) ∈ f.symbols)
  | "ifopt" => (switchAsked rest).any fun (s, on) => f.switches s == on
  | _ =>
    match IfExpr.eval f.symbols rest with
    | .ok value => value
    | .error _ => false

end Facts

/-- The facts and the open conditionals, innermost first, after a number of directives. `settings` is
what directives that are no conditionals act on. -/
structure Reference where
  settings : Settings
  facts : Facts
  opened : List Conditional
  count : Nat

namespace Reference
variable (r : Reference)

/-- The branch of every open conditional is the selected one. -/
def Accepts : Prop := ∀ c ∈ r.opened, c.Active

instance : Decidable r.Accepts := inferInstanceAs (Decidable (∀ _ ∈ _, _))

/-- The current branch of the innermost conditional ends and one with the condition begins. -/
def nextBranch (condition isElse : Bool) : Reference :=
  match r.opened with
  | [] => r
  | c :: outer =>
    if c.elseSeen then r
    else { r with opened := { c with conditions := c.conditions ++ [condition],
                                     elseSeen := isElse } :: outer }

def directive (files : IncludeFiles) (body : List Char) : Reference :=
  let (head, rest) := splitDirective body
  let r := { r with count := r.count+1 }
  match conditionalKind head with
  | some .opens => { r with opened := ⟨r.count, [r.facts.holds head rest], false⟩ :: r.opened }
  | some .elseif => r.nextBranch (r.facts.holds head rest) false
  | some .else => r.nextBranch true true
  | some .endif => { r with opened := r.opened.tail }
  | none =>
    if r.Accepts then
      { r with settings := (r.settings.obey files head rest).1,
               facts := r.facts.after (changeOf head rest) }
    else r

end Reference

/-! The settings of the lexer have the same facts. -/

namespace Settings
variable (s : Settings)

def switch : Switch → Bool
  | .overflowChecks => s.qCheck
  | .rangeChecks => s.rCheck
  | .typedAddresses => s.tTypedAddresses
  | .longStrings => s.hLongStrings

def facts : Facts := ⟨s.defines, s.switch⟩

@[simp] theorem facts_symbols : s.facts.symbols = s.defines := rfl
@[simp] theorem facts_switches : s.facts.switches = s.switch := rfl

theorem switchIs_eq (rest : List Char) :
    s.switchIs rest = (switchAsked rest).any fun (switch, on) => s.switch switch == on := by
  unfold switchIs switchAsked
  generalize lower (trim rest) = word
  split
  case h_15 => simp_all
  all_goals simp [switch]

@[simp] theorem push_facts (path : String) (contents : List Char) :
    (s.push path contents).facts = s.facts := rfl

theorem doInclude_facts (files : IncludeFiles) (rest : List Char) :
    (s.doInclude files rest).1.facts = s.facts := by
  unfold doInclude includeMacro
  dsimp only
  split_ifs
  · rfl
  · split <;> rfl
  · split
    · rfl
    · split <;> rfl

theorem obey_facts (files : IncludeFiles) (head : String) (rest : List Char) :
    (s.obey files head rest).1.facts = s.facts.after (changeOf head rest) := by
  have hswitch {switch : Switch} {on : Bool} {s' : Settings} (hdefines : s'.defines = s.defines)
      (hset : ∀ other, s'.switch other = Function.update s.switch switch on other) :
      s'.facts = s.facts.after (some (.switch switch on)) := by
    simp [facts, Facts.after, hdefines, funext hset]
  unfold obey changeOf
  split
  case h_1 =>
    unfold define
    dsimp only
    split_ifs <;> rfl
  case h_27 =>
    generalize lower (trim rest) = word
    split
    · rw [if_pos rfl]
      exact hswitch rfl fun other => by cases other <;> rfl
    · rfl
    · rw [if_neg ‹_›]
      rfl
  case h_28 =>
    generalize lower (trim rest) = word
    split
    case h_5 => simp_all [illegal, Facts.after]
    all_goals exact hswitch rfl fun other => by cases other <;> rfl
  case h_36 => simp_all [Facts.after]
  all_goals first
    | rfl
    | exact s.doInclude_facts files rest
    | exact hswitch rfl fun other => by cases other <;> rfl
    | split <;> rfl

end Settings

section
variable {files : IncludeFiles}

inductive Frames : List IfdefFrame → List Conditional → Prop
  | nil : Frames [] []
  | cons {f : IfdefFrame} {c : Conditional} {frames : List IfdefFrame} {opened : List Conditional} :
      Frames frames opened → c.conditions ≠ [] →
      (f.accepting = true ↔ (∀ c ∈ opened, c.Active) ∧ c.Active) →
      (f.anyTaken = true ↔ (∀ c ∈ opened, c.Active) ∧ true ∈ c.conditions) →
      f.inElse = c.elseSeen → Frames (f :: frames) (c :: opened)

theorem Frames.accepting {frames : List IfdefFrame} {opened : List Conditional}
    (h : Frames frames opened) : frames.all (·.accepting) = true ↔ ∀ c ∈ opened, c.Active := by
  induction h with
  | nil => simp
  | cons _ _ ha _ _ ih =>
    rw [List.all_cons, Bool.and_eq_true, ih, ha, List.forall_mem_cons]
    tauto

theorem active_snoc (opened : Nat) (earlier : List Bool) (condition elseSeen : Bool) :
    Conditional.Active ⟨opened, earlier ++ [condition], elseSeen⟩ ↔
      true ∉ earlier ∧ condition = true := by
  have hfind : earlier.findIdx? id = none ↔ true ∉ earlier := by
    simp only [List.findIdx?_eq_none_iff, id_eq]
    refine ⟨fun h hm => Bool.noConfusion (h true hm), fun h x hx => ?_⟩
    cases x with
    | false => rfl
    | true => exact absurd hx h
  simp only [Conditional.Active, Conditional.selected, Conditional.current, List.findIdx?_append]
  cases hf : earlier.findIdx? id with
  | none => cases condition <;> simp [← hfind, hf]
  | some i =>
    have hlt := (List.findIdx?_eq_some_iff_findIdx_eq.mp hf).1
    have hne : ¬ true ∉ earlier := by simp [← hfind, hf]
    simp [hne]
    omega

structure Simulates (l : Lexer) (r : Reference) : Prop where
  settings : l.toSettings = r.settings
  facts : l.facts = r.facts
  frames : Frames l.ifdefStack r.opened

theorem Simulates.accepting {l : Lexer} {r : Reference} (h : Simulates l r) :
    l.accepting = true ↔ r.Accepts := h.frames.accepting

theorem Simulates.report {l : Lexer} {r : Reference} (h : Simulates l r) (d : Diagnostic) :
    Simulates (l.report d) r := ⟨h.settings, h.facts, h.frames⟩

theorem Simulates.openFrame {l : Lexer} {r : Reference} (h : Simulates l r) (condition : Bool)
    (opened count : Nat) : Simulates (l.openFrame (l.accepting && condition))
      ⟨r.settings, r.facts, ⟨opened, [condition], false⟩ :: r.opened, count⟩ := by
  refine ⟨h.settings, h.facts, .cons h.frames (by simp) ?_ ?_ rfl⟩
  · rw [Bool.and_eq_true, h.accepting]
    exact and_congr_right fun _ => ((active_snoc opened [] condition false).trans (by simp)).symm
  · rw [Bool.and_eq_true, h.accepting]
    exact and_congr_right fun _ => by cases condition <;> simp

theorem evalCondition_spec (l : Lexer) {head : String} (rest : List Char)
    (hhead : head = "if" ∨ head = "elseif") :
    (l.evalCondition head rest).1 = l.facts.holds head rest ∧
    (l.evalCondition head rest).2.toSettings = l.toSettings ∧
    (l.evalCondition head rest).2.ifdefStack = l.ifdefStack := by
  have hsymbols : l.facts.symbols = l.defines := rfl
  rcases hhead with rfl | rfl <;> unfold Lexer.evalCondition Facts.holds <;> rw [hsymbols] <;>
    cases IfExpr.eval l.defines rest <;> exact ⟨rfl, rfl, rfl⟩

theorem Simulates.handleIf {l : Lexer} {r : Reference} (h : Simulates l r) (rest : List Char)
    (opened count : Nat) : Simulates (l.handleIf rest)
      ⟨r.settings, r.facts, ⟨opened, [r.facts.holds "if" rest], false⟩ :: r.opened, count⟩ := by
  obtain ⟨hvalue, hsettings, hstack⟩ := evalCondition_spec l rest (.inl rfl)
  have h' : Simulates (l.evalCondition "if" rest).2 r :=
    ⟨hsettings.trans h.settings, (congrArg Settings.facts hsettings).trans h.facts,
      hstack ▸ h.frames⟩
  have haccepting : (l.evalCondition "if" rest).2.accepting = l.accepting := by
    simp only [Lexer.accepting, hstack]
  unfold Lexer.handleIf
  cases ha : l.accepting with
  | true =>
    have hopen := h'.openFrame (r.facts.holds "if" rest) opened count
    rw [haccepting, ha, Bool.true_and, ← h.facts, ← hvalue, h.facts] at hopen
    rw [← h.facts, ← hvalue, h.facts]
    exact hopen
  | false =>
    have hopen := h.openFrame (r.facts.holds "if" rest) opened count
    rw [ha, Bool.false_and] at hopen
    exact hopen

theorem Frames.nextBranch {f : IfdefFrame} {frames : List IfdefFrame} {c : Conditional}
    {opened : List Conditional} (h : Frames (f :: frames) (c :: opened)) {condition : Bool}
    (inElse : Bool) {accepting : Bool}
    (ha : accepting = (frames.all (·.accepting) && !f.anyTaken && condition)) :
    Frames (⟨accepting, f.anyTaken || accepting, inElse⟩ :: frames)
      (⟨c.opened, c.conditions ++ [condition], inElse⟩ :: opened) := by
  cases h with
  | cons houter hne hacc htaken helse =>
    have hall := houter.accepting
    have hacc' : accepting = true ↔
        (∀ c ∈ opened, c.Active) ∧ true ∉ c.conditions ∧ condition = true := by
      rw [ha, Bool.and_eq_true, Bool.and_eq_true, hall, Bool.not_eq_true', ← Bool.not_eq_true,
        htaken]
      constructor
      · rintro ⟨⟨hp, hn⟩, hc⟩
        exact ⟨hp, fun ht => hn ⟨hp, ht⟩, hc⟩
      · rintro ⟨hp, ht, hc⟩
        exact ⟨⟨hp, fun h => ht h.2⟩, hc⟩
    refine .cons houter (by simp) ?_ ?_ rfl
    · rw [hacc', active_snoc]
    · rw [Bool.or_eq_true, hacc', htaken, List.mem_append, List.mem_singleton]
      simp only [eq_comm (a := true)]
      constructor
      · intro h
        cases h with
        | inl h => exact ⟨h.1, .inl h.2⟩
        | inr h => exact ⟨h.1, .inr h.2.2⟩
      · rintro ⟨hp, hc⟩
        by_cases ht : true ∈ c.conditions
        · exact .inl ⟨hp, ht⟩
        · exact .inr ⟨hp, ht, hc.resolve_left ht⟩

theorem Simulates.handleElse {l : Lexer} {r : Reference} (h : Simulates l r) :
    Simulates l.handleElse (r.nextBranch true true) := by
  obtain ⟨s, frames, diagnostics⟩ := l
  obtain ⟨s', facts, opened, count⟩ := r
  obtain ⟨hs, hfacts, hf⟩ := h
  cases id hf with
  | nil => exact ⟨hs, hfacts, hf⟩
  | @cons f c frames opened _ _ _ _ helse =>
    by_cases he : c.elseSeen = true
    · rw [he] at helse
      simp only [Lexer.handleElse, Reference.nextBranch, helse, he, if_true]
      exact ⟨hs, hfacts, hf⟩
    · rw [Bool.not_eq_true] at he
      rw [he] at helse
      simp only [Lexer.handleElse, Reference.nextBranch, helse, he, Bool.false_eq_true, if_false]
      exact ⟨hs, hfacts, hf.nextBranch true (by simp)⟩

theorem Simulates.handleElseif {l : Lexer} {r : Reference} (h : Simulates l r)
    (rest : List Char) :
    Simulates (l.handleElseif rest) (r.nextBranch (r.facts.holds "elseif" rest) false) := by
  obtain ⟨hvalue, hsettings, -⟩ := evalCondition_spec l rest (.inr rfl)
  obtain ⟨s, frames, diagnostics⟩ := l
  obtain ⟨s', facts, opened, count⟩ := r
  obtain ⟨rfl, rfl, hf⟩ := h
  cases id hf with
  | nil => exact ⟨rfl, rfl, hf⟩
  | @cons f c frames opened _ _ _ _ helse =>
    by_cases he : c.elseSeen = true
    · rw [he] at helse
      simp only [Lexer.handleElseif, Reference.nextBranch, helse, he, if_true]
      exact ⟨rfl, rfl, hf⟩
    · rw [Bool.not_eq_true] at he
      rw [he] at helse
      simp only [Lexer.handleElseif, Reference.nextBranch, helse, he, Bool.false_eq_true, if_false]
      cases hp : frames.all (·.accepting) && !f.anyTaken with
      | true =>
        simp only [if_true, Bool.true_and]
        exact ⟨hsettings, congrArg Settings.facts hsettings,
          hf.nextBranch false (by rw [hp, Bool.true_and, hvalue])⟩
      | false =>
        simp only [Bool.false_eq_true, if_false, Bool.false_and]
        exact ⟨rfl, rfl, hf.nextBranch false (by rw [hp, Bool.false_and])⟩

theorem Simulates.handleEndif {l : Lexer} {r : Reference} (h : Simulates l r) :
    Simulates l.handleEndif { r with opened := r.opened.tail } := by
  obtain ⟨s, frames, diagnostics⟩ := l
  obtain ⟨s', facts, opened, count⟩ := r
  obtain ⟨hs, hfacts, hf⟩ := h
  cases hf with
  | nil => exact ⟨hs, hfacts, .nil⟩
  | cons houter => exact ⟨hs, hfacts, houter⟩

theorem Simulates.directive {l : Lexer} {r : Reference} (h : Simulates l r)
    (files : IncludeFiles) (body : List Char) :
    Simulates (l.handleDirective files body) (r.directive files body) := by
  have hcount : Simulates l { r with count := r.count+1 } := ⟨h.settings, h.facts, h.frames⟩
  unfold Lexer.handleDirective Reference.directive
  cases splitDirective body with
  | mk head rest =>
    dsimp only
    split
    · have hobey : ({ r with count := r.count+1 } : Reference).settings.obey files "" rest =
          (r.settings, []) := rfl
      have hafter : ({ r with count := r.count+1 } : Reference).facts.after (changeOf "" rest) =
          r.facts := rfl
      simp only [conditionalKind, hobey, hafter, ite_self]
      exact hcount
    · have := hcount.openFrame (r.facts.holds "ifdef" rest) (r.count+1) (r.count+1)
      simpa [conditionalKind, Facts.holds, ← h.facts] using this
    · have := hcount.openFrame (r.facts.holds "ifndef" rest) (r.count+1) (r.count+1)
      simpa [conditionalKind, Facts.holds, ← h.facts] using this
    · exact hcount.handleIf rest (r.count+1) (r.count+1)
    · have := hcount.openFrame (r.facts.holds "ifopt" rest) (r.count+1) (r.count+1)
      simpa [conditionalKind, Facts.holds, ← h.facts, Settings.switchIs_eq] using this
    · exact hcount.handleElseif rest
    · exact hcount.handleElse
    · exact hcount.handleEndif
    · exact hcount.handleEndif
    · have hkind : conditionalKind head = none := by
        unfold conditionalKind
        split <;> first | contradiction | rfl
      simp only [hkind]
      by_cases ha : r.Accepts
      · have ha' : ({ r with count := r.count+1 } : Reference).Accepts := ha
        simp only [h.accepting.mpr ha, ha', if_true]
        refine ⟨by rw [← h.settings], ?_, h.frames⟩
        rw [← h.facts]
        exact l.obey_facts files head rest
      · have ha' : ¬ ({ r with count := r.count+1 } : Reference).Accepts := ha
        simp only [mt h.accepting.mp ha, ha', if_false]
        exact hcount

/-- The later state has the conditionals that are still open with their branches so far. -/
structure Reference.Continues (r r' : Reference) : Prop where
  count : r.count ≤ r'.count
  grown : ∀ c' ∈ r'.opened, c'.opened ≤ r.count →
    ∃ c ∈ r.opened, c.opened = c'.opened ∧ c.conditions <+: c'.conditions

structure Reference.Numbered (r : Reference) : Prop where
  inside : r.opened.Pairwise fun c outer => outer.opened < c.opened
  bound : ∀ c ∈ r.opened, c.opened ≤ r.count

theorem Reference.Numbered.unique {r : Reference} (h : r.Numbered) {c c' : Conditional}
    (hc : c ∈ r.opened) (hc' : c' ∈ r.opened) (hid : c.opened = c'.opened) : c = c' := by
  have hnodup : (r.opened.map (·.opened)).Nodup :=
    List.pairwise_map.mpr (h.inside.imp fun hlt => (Nat.ne_of_lt hlt).symm)
  exact List.inj_on_of_nodup_map hnodup hc hc' hid

theorem Reference.Continues.refl (r : Reference) : r.Continues r :=
  ⟨Nat.le_refl _, fun c hc _ => ⟨c, hc, rfl, List.prefix_refl _⟩⟩

theorem Reference.Continues.trans {r r' r'' : Reference} (h : r.Continues r')
    (h' : r'.Continues r'') : r.Continues r'' := by
  refine ⟨h.count.trans h'.count, fun c'' hc'' hle => ?_⟩
  obtain ⟨c', hc', hid', hpre'⟩ := h'.grown c'' hc'' (hle.trans h.count)
  obtain ⟨c, hc, hid, hpre⟩ := h.grown c' hc' (hid' ▸ hle)
  exact ⟨c, hc, hid.trans hid', hpre.trans hpre'⟩

theorem Reference.nextBranch_continues (r : Reference) (condition isElse : Bool) :
    r.Continues (r.nextBranch condition isElse) := by
  obtain ⟨s, facts, opened, count⟩ := r
  unfold Reference.nextBranch
  cases opened with
  | nil => exact .refl _
  | cons c outer =>
    by_cases he : c.elseSeen = true
    · simp only [he, if_true]
      exact .refl _
    · simp only [he]
      refine ⟨Nat.le_refl _, fun c' hc' _ => ?_⟩
      rcases List.mem_cons.mp hc' with rfl | hc'
      · exact ⟨c, List.mem_cons_self, rfl, List.prefix_append _ _⟩
      · exact ⟨c', List.mem_cons_of_mem _ hc', rfl, List.prefix_refl _⟩

theorem Reference.nextBranch_numbered {r : Reference} (h : r.Numbered) (condition isElse : Bool) :
    (r.nextBranch condition isElse).Numbered := by
  obtain ⟨s, facts, opened, count⟩ := r
  unfold Reference.nextBranch
  cases opened with
  | nil => exact h
  | cons c outer =>
    by_cases he : c.elseSeen = true
    · simpa only [he, if_true] using h
    · obtain ⟨hin, hbound⟩ := h
      simp only [he]
      rw [List.pairwise_cons] at hin
      refine ⟨List.pairwise_cons.mpr hin, List.forall_mem_cons.mpr ?_⟩
      exact List.forall_mem_cons.mp hbound

theorem Reference.directive_continues {r : Reference} (h : r.Numbered) (files : IncludeFiles)
    (body : List Char) :
    r.Continues (r.directive files body) ∧ (r.directive files body).Numbered := by
  have hnext : r.Continues { r with count := r.count+1 } :=
    ⟨Nat.le_succ _, fun c hc _ => ⟨c, hc, rfl, List.prefix_refl _⟩⟩
  have hnumbered : ({ r with count := r.count+1 } : Reference).Numbered :=
    ⟨h.inside, fun c hc => Nat.le_succ_of_le (h.bound c hc)⟩
  unfold Reference.directive
  dsimp only
  split
  · refine ⟨⟨Nat.le_succ _, fun c' hc' hle => ?_⟩, List.pairwise_cons.mpr ⟨fun c hc => ?_, h.inside⟩,
      List.forall_mem_cons.mpr ⟨Nat.le_refl _, hnumbered.bound⟩⟩
    · rcases List.mem_cons.mp hc' with rfl | hc'
      · exact absurd hle (Nat.not_succ_le_self _)
      · exact ⟨c', hc', rfl, List.prefix_refl _⟩
    · exact Nat.lt_succ_of_le (h.bound c hc)
  · exact ⟨hnext.trans (nextBranch_continues _ _ _), nextBranch_numbered hnumbered _ _⟩
  · exact ⟨hnext.trans (nextBranch_continues _ _ _), nextBranch_numbered hnumbered _ _⟩
  · refine ⟨⟨Nat.le_succ _, fun c hc _ => ⟨c, List.mem_of_mem_tail hc, rfl, List.prefix_refl _⟩⟩,
      h.inside.sublist (List.tail_sublist _), fun c hc => ?_⟩
    exact hnumbered.bound c (List.mem_of_mem_tail hc)
  · split
    · exact ⟨⟨hnext.count, hnext.grown⟩, hnumbered.inside, hnumbered.bound⟩
    · exact ⟨hnext, hnumbered⟩

/-- A selected branch stays the only one: no longer list of conditions has another. -/
theorem Conditional.Active.branch_eq {c c' : Conditional} (h : c.Active) (h' : c'.Active)
    (hpre : c.conditions <+: c'.conditions) : c.current = c'.current := by
  obtain ⟨more, hmore⟩ := hpre
  have hsel : c'.conditions.findIdx? id = some c.current := by
    rw [← hmore, List.findIdx?_append]
    have hc : c.conditions.findIdx? id = some c.current := h
    simp [hc]
  exact Option.some.inj (hsel.symm.trans h')

/-- What the lexer reads one after the other: a directive, or the source up to the next one. -/
inductive Piece where
  | directive (body : List Char)
  | segment (text : List Char)

def Lexer.read (files : IncludeFiles) (l : Lexer) : Piece → Lexer
  | .directive body => l.handleDirective files body
  | .segment _ => l

def Reference.read (files : IncludeFiles) (r : Reference) : Piece → Reference
  | .directive body => r.directive files body
  | .segment _ => r

theorem foldl_read_simulates (files : IncludeFiles) (pieces : List Piece) {l : Lexer}
    {r : Reference} (h : Simulates l r) :
    Simulates (pieces.foldl (Lexer.read files) l) (pieces.foldl (Reference.read files) r) := by
  induction pieces generalizing l r with
  | nil => exact h
  | cons piece pieces ih =>
    cases piece with
    | directive body => exact ih (h.directive files body)
    | segment text => exact ih h

theorem foldl_read_continues (files : IncludeFiles) (pieces : List Piece) {r : Reference}
    (h : r.Numbered) : r.Continues (pieces.foldl (Reference.read files) r) ∧
      (pieces.foldl (Reference.read files) r).Numbered := by
  induction pieces generalizing r with
  | nil => exact ⟨.refl r, h⟩
  | cons piece pieces ih =>
    cases piece with
    | directive body =>
      obtain ⟨hstep, hnext⟩ := Reference.directive_continues h files body
      obtain ⟨hrest, hlast⟩ := ih hnext
      exact ⟨hstep.trans hrest, hlast⟩
    | segment text => exact ih h

theorem handleDirective_rejected {l : Lexer} (h : l.accepting = false) {body : List Char}
    (hkind : conditionalKind (splitDirective body).1 = none) :
    l.handleDirective files body = l := by
  unfold Lexer.handleDirective
  cases hs : splitDirective body with
  | mk head rest =>
    rw [hs] at hkind
    dsimp only at hkind ⊢
    split <;> simp_all [conditionalKind]

def Lexer.handleKind (l : Lexer) (rest : List Char) : ConditionalKind → Lexer
  | .opens => l
  | .elseif => l.handleElseif rest
  | .else => l.handleElse
  | .endif => l.handleEndif

theorem handleDirective_of_kind (l : Lexer) {body : List Char} {kind : ConditionalKind}
    (hkind : conditionalKind (splitDirective body).1 = some kind) (hopens : kind ≠ .opens) :
    l.handleDirective files body = l.handleKind (splitDirective body).2 kind := by
  unfold Lexer.handleDirective
  generalize splitDirective body = parts at hkind ⊢
  obtain ⟨head, rest⟩ := parts
  dsimp only at hkind ⊢
  unfold conditionalKind at hkind
  split at hkind <;> cases hkind <;> first | contradiction | rfl

theorem handleDirective_unmatched {l : Lexer} {body : List Char} {kind : ConditionalKind}
    (hkind : conditionalKind (splitDirective body).1 = some kind) (hopens : kind ≠ .opens)
    (h : l.ifdefStack = [] ∨ kind ≠ .endif ∧ l.ifdefStack.head?.any (·.inElse)) :
    (l.handleDirective files body).ifdefStack = l.ifdefStack := by
  obtain ⟨s, frames, diagnostics⟩ := l
  rw [handleDirective_of_kind _ hkind hopens]
  cases frames with
  | nil => cases kind <;> rfl
  | cons f outer =>
    obtain ⟨hendif, hf⟩ : kind ≠ .endif ∧ f.inElse = true := by simpa using h
    cases kind with
    | opens => rfl
    | elseif => simp [Lexer.handleKind, Lexer.handleElseif, Lexer.report, hf]
    | «else» => simp [Lexer.handleKind, Lexer.handleElse, Lexer.report, hf]
    | endif => contradiction

def Lexer.after (files : IncludeFiles) (s : Settings) (pieces : List Piece) : Lexer :=
  pieces.foldl (Lexer.read files) ⟨s, [], []⟩

def Reference.after (files : IncludeFiles) (s : Settings) (pieces : List Piece) : Reference :=
  pieces.foldl (Reference.read files) ⟨s, s.facts, [], 0⟩

end

/-- The lexer accepts the source exactly where every open conditional is in its selected branch,
so in one branch of each at most, and has the symbols and switches that the accepted directives set.
What it rejects has no effect, and what matches no conditional leaves the stack. -/
theorem lexer_accepts (files : IncludeFiles) (s : Settings) (pieces : List Piece) :
    ((Lexer.after files s pieces).accepting = true ↔ (Reference.after files s pieces).Accepts) ∧
    (Lexer.after files s pieces).toSettings = (Reference.after files s pieces).settings ∧
    (Lexer.after files s pieces).facts = (Reference.after files s pieces).facts ∧
    (∀ later, ∀ c ∈ (Reference.after files s pieces).opened,
      ∀ c' ∈ (Reference.after files s (pieces ++ later)).opened, c.opened = c'.opened →
        (Lexer.after files s pieces).accepting = true →
        (Lexer.after files s (pieces ++ later)).accepting = true → c.current = c'.current) ∧
    (∀ body, conditionalKind (splitDirective body).1 = none →
      (Lexer.after files s pieces).accepting = false →
        (Lexer.after files s pieces).handleDirective files body = Lexer.after files s pieces) ∧
    ∀ body kind, conditionalKind (splitDirective body).1 = some kind → kind ≠ .opens →
      (Lexer.after files s pieces).ifdefStack = [] ∨
        kind ≠ .endif ∧ (Lexer.after files s pieces).ifdefStack.head?.any (·.inElse) →
      ((Lexer.after files s pieces).handleDirective files body).ifdefStack =
        (Lexer.after files s pieces).ifdefStack := by
  have hinit : Simulates ⟨s, [], []⟩ ⟨s, s.facts, [], 0⟩ := ⟨rfl, rfl, .nil⟩
  have hsim : ∀ pieces, Simulates (Lexer.after files s pieces) (Reference.after files s pieces) :=
    fun pieces => foldl_read_simulates files pieces hinit
  refine ⟨(hsim pieces).accepting, (hsim pieces).settings, (hsim pieces).facts, ?_,
    fun body hkind ha => handleDirective_rejected ha hkind,
    fun body kind hkind hopens h => handleDirective_unmatched hkind hopens h⟩
  intro later c hc c' hc' hid ha ha'
  have hnum : Reference.Numbered ⟨s, s.facts, [], 0⟩ := ⟨.nil, by simp⟩
  obtain ⟨-, hnum⟩ := foldl_read_continues files pieces hnum
  obtain ⟨hcont, -⟩ := foldl_read_continues files later hnum
  rw [← List.foldl_append] at hcont
  obtain ⟨b, hb, hbid, hpre⟩ := hcont.grown c' hc' (hid ▸ hnum.bound c hc)
  have hbc : b = c := hnum.unique hb hc (hbid.trans hid.symm)
  subst hbc
  exact ((hsim pieces).accepting.mp ha b hc).branch_eq
    ((hsim (pieces ++ later)).accepting.mp ha' c' hc') hpre

end Tp2cc
