import Tp2cc.Lexer.IfLexeme

/-! The evaluator of conditions accepts exactly the grammar, and gives the value of a condition
whose integers it reads in 64 bits. -/
set_option autoImplicit false

namespace Tp2cc.IfExpr
open Machine Parsing

def reading (defines : Symbols) : Env where
  isDefined sym := decide (sym ∈ defines)
  symbol name v := ∃ text : String, defines.lookup name = some (some text) ∧ macroValue text = some v
  int := readInteger

variable {defines : Symbols}

theorem failed_run {msg : String} {v w : Value} {s s' : State}
    (h : (fail msg >>= fun _ => (pure v : IP Value)) s = some (w, s')) : s'.ok = false := by
  cases h
  rfl

/-- What the parser returns without a failure is spelled by the text and has the value. -/
def Sound (defines : Symbols) (part : Part) (p : IP Value) : Prop :=
  ∀ (s : State) (v : Value) (s' : State), p s = some (v, s') → s'.ok = true → s.ok = true ∧
    ∃ e, Spells part (afterBlanks s.src) e (afterBlanks s'.src) ∧ Denotes (reading defines) e v

theorem parseDefined_sound {s s' : State} {v : Value} {src : List Char}
    (h : parseDefined defines s = some (v, s')) (hok : s'.ok = true)
    (hword : HasWord wordDefined src (afterBlanks s.src)) :
    s.ok = true ∧ ∃ e, Spells .primary src e (afterBlanks s'.src) ∧ Denotes (reading defines) e v := by
  rcases (matchChar_detects '(').branch h with ⟨src₁, hopen, h⟩ | ⟨-, h⟩
  · rcases readIdent_answer (s.at src₁) with ⟨name, src₂, hrun, hne, hident, -⟩ | ⟨⟨src₂, hrun⟩, -⟩
    · rw [bind_of hrun, if_neg hne] at h
      rcases (matchChar_detects ')').branch h with ⟨src₃, hclose, h⟩ | ⟨-, h⟩
      · cases h
        exact ⟨hok, _, .defined hword hopen hident hclose, .defined⟩
      · rw [failed_run h] at hok
        contradiction
    · rw [bind_of hrun, if_pos rfl] at h
      rw [failed_run h] at hok
      contradiction
  · rw [failed_run h] at hok
    contradiction

theorem parseSymbol_sound {s s' : State} {v : Value} (hother : NoOther (afterBlanks s.src))
    (h : parseSymbol defines s = some (v, s')) (hok : s'.ok = true) :
    s.ok = true ∧ ∃ e, Spells .primary (afterBlanks s.src) e (afterBlanks s'.src) ∧
      Denotes (reading defines) e v := by
  rcases readIdent_answer s with ⟨name, src, hrun, hne, hident, -⟩ | ⟨⟨src, hrun⟩, -⟩
  · rw [parseSymbol, bind_of hrun, if_neg hne] at h
    obtain ⟨found, hfound⟩ : ∃ found : Option (Option String), defines.lookup name = found :=
      ⟨_, rfl⟩
    rw [hfound] at h
    rcases found with _ | _ | text
    · rw [failed_run h] at hok
      contradiction
    · rw [failed_run h] at hok
      contradiction
    · cases hvalue : macroValue text with
      | none =>
        simp only [hvalue] at h
        rw [failed_run h] at hok
        contradiction
      | some value =>
        simp only [hvalue] at h
        cases h
        exact ⟨hok, _, .symbol hother hident, .symbol ⟨text, hfound, hvalue⟩⟩
  · rw [parseSymbol, bind_of hrun, if_pos rfl] at h
    rw [failed_run h] at hok
    contradiction

structure Routines.Sound (defines : Symbols) (r : Routines) : Prop where
  parseExpr : IfExpr.Sound defines .expr r.parseExpr
  parseUnary : IfExpr.Sound defines .unary r.parseUnary

variable {r : Routines} (hr : r.Sound defines)
include hr

theorem parsePrimary_sound {s s' : State} {v : Value}
    (h : parsePrimary defines r s = some (v, s')) (hok : s'.ok = true)
    (hnot : ∀ rest, ¬ HasWord wordNot (afterBlanks s.src) rest) :
    s.ok = true ∧ ∃ e, Spells .primary (afterBlanks s.src) e (afterBlanks s'.src) ∧
      Denotes (reading defines) e v := by
  rcases (matchChar_detects '(').branch h with ⟨src, hopen, h⟩ | ⟨-, h⟩
  · obtain ⟨w, s₁, hexpr, h⟩ := bind_eq_some h
    rcases (matchChar_detects ')').branch h with ⟨src₁, hclose, h⟩ | ⟨-, h⟩
    · cases h
      obtain ⟨hok', e, hspells, hvalue⟩ := hr.parseExpr _ _ _ hexpr hok
      exact ⟨hok', e, .paren hopen hspells hclose, hvalue⟩
    · cases h
      contradiction
  · rcases (matchWord_detects (by simp)).branch h with ⟨src, hword, h⟩ | ⟨hdefined, h⟩
    · simp only [State.at_src, State.at_at, afterBlanks_afterBlanks] at hword h
      obtain ⟨hok', found⟩ := parseDefined_sound h hok hword
      exact ⟨hok', found⟩
    · simp only [State.at_src, State.at_at, afterBlanks_afterBlanks] at hdefined h
      rcases (matchWord_detects (by simp [wordTrue])).branch h with ⟨src, hword, h⟩ | ⟨htrue, h⟩
      · simp only [State.at_src, State.at_at, afterBlanks_afterBlanks] at hword h
        cases h
        exact ⟨hok, _, .wordTrue hword, .bool⟩
      · simp only [State.at_src, State.at_at, afterBlanks_afterBlanks] at htrue h
        rcases (matchWord_detects (by simp [wordFalse])).branch h with
          ⟨src, hword, h⟩ | ⟨hfalse, h⟩
        · simp only [State.at_src, State.at_at, afterBlanks_afterBlanks] at hword h
          cases h
          exact ⟨hok, _, .wordFalse hword, .bool⟩
        · simp only [State.at_src, State.at_at, afterBlanks_afterBlanks] at hfalse h
          rcases readInt_answer (s.at (afterBlanks s.src)) with
            ⟨negative, digits, src, hrun, hnumeral, -⟩ | ⟨hrun, hnumeral⟩
          · rw [bind_of hrun] at h
            simp only [State.at_src, afterBlanks_afterBlanks] at hnumeral
            cases h
            exact ⟨hok, _, .int hnumeral, .int⟩
          · rw [bind_of hrun] at h
            simp only [State.at_src, State.at_at, afterBlanks_afterBlanks] at hnumeral h
            have hother : NoOther (afterBlanks s.src) := by
              refine ⟨fun word hword => ?_, hnumeral⟩
              simp only [List.mem_cons, List.not_mem_nil, or_false] at hword
              rcases hword with rfl | rfl | rfl | rfl
              · exact hnot
              · exact hdefined
              · exact htrue
              · exact hfalse
            obtain ⟨hok', found⟩ := parseSymbol_sound (by simpa using hother) h hok
            exact ⟨hok', by simpa using found⟩

theorem parseUnary_sound : Sound defines .unary (parseUnary defines r) := by
  intro s v s' h hok
  rcases (matchWord_detects (by simp)).branch h with ⟨src, hword, h⟩ | ⟨hnot, h⟩
  · obtain ⟨w, s₁, hunary, h⟩ := bind_eq_some h
    cases w with
    | bool b =>
      cases h
      obtain ⟨hok', e, hspells, hvalue⟩ := hr.parseUnary _ _ _ hunary hok
      exact ⟨hok', _, .not hword hspells, .not hvalue⟩
    | int i =>
      rw [failed_run h] at hok
      contradiction
  · obtain ⟨hok', e, hspells, hvalue⟩ := parsePrimary_sound hr h hok (by
      rw [State.at_src, afterBlanks_afterBlanks]
      exact hnot)
    exact ⟨hok', e, .primary (by simpa using hspells), hvalue⟩

omit hr

def chainStep (word : List Char) (apply : Bool → Bool → Bool) (operand : IP Value) (v : Value) :
    IP (LoopStep Value Value) := do
  if ← matchWord word then do
    match v, ← operand with
    | .bool a, .bool b => return .again (.bool (apply a b))
    | _, _ => do
      fail ("operator `" ++ String.ofList word ++
        "' requires boolean operands in \x7b$if\x7d expression")
      return .done (.bool false)
  else return .done v

theorem parseChain_eq (r : Routines) (word : List Char) (apply : Bool → Bool → Bool)
    (operand : IP Value) : parseChain r word apply operand =
      operand >>= Parsing.loop (chainStep word apply operand) r.fuel := rfl

section
variable {j : Joint} {operand : IP Value}

theorem Joint.word_ne (j : Joint) : j.word ≠ [] := by
  cases j <;> simp [Joint.word]

theorem chainLoop_sound (ho : Sound defines j.operand operand) {n : Nat} {v w : Value}
    {s s' : State} (h : Parsing.loop (chainStep j.word j.apply operand) n v s = some (w, s'))
    (hok : s'.ok = true) : s.ok = true ∧ ∀ left, Denotes (reading defines) left v →
      ∃ e, Spells (.tail j left) (afterBlanks s.src) e (afterBlanks s'.src) ∧
        Denotes (reading defines) e w := by
  induction n generalizing v s with
  | zero => cases h
  | succ n ih =>
    obtain ⟨step, s₁, hstep, h⟩ := bind_eq_some h
    rcases (matchWord_detects j.word_ne).branch hstep with ⟨src, hword, hstep⟩ | ⟨hno, hstep⟩
    · obtain ⟨u, s₂, hoperand, hstep⟩ := bind_eq_some hstep
      cases v with
      | int i =>
        cases hstep
        cases h
        contradiction
      | bool a =>
        cases u with
        | int i =>
          cases hstep
          cases h
          contradiction
        | bool b =>
          cases hstep
          obtain ⟨hok₂, htail⟩ := ih h
          obtain ⟨hok₁, right, hright, hvalue⟩ := ho _ _ _ hoperand hok₂
          refine ⟨hok₁, fun left hleft => ?_⟩
          obtain ⟨e, he, hw⟩ := htail (.join j left right) (.join hleft hvalue)
          exact ⟨e, .more hword hright he, hw⟩
    · cases hstep
      cases h
      refine ⟨hok, fun left hleft => ⟨left, ?_, hleft⟩⟩
      simp only [State.at_src, afterBlanks_afterBlanks]
      exact .done

theorem parseChain_sound (ho : Sound defines j.operand operand) (r : Routines) :
    Sound defines (.chain j) (parseChain r j.word j.apply operand) := by
  intro s v s' h hok
  rw [parseChain_eq] at h
  obtain ⟨u, s₁, hoperand, h⟩ := bind_eq_some h
  obtain ⟨hok₁, htail⟩ := chainLoop_sound ho h hok
  obtain ⟨hok₀, left, hleft, hvalue⟩ := ho _ _ _ hoperand hok₁
  obtain ⟨e, he, hw⟩ := htail left hvalue
  exact ⟨hok₀, e, .chain hleft he, hw⟩

end

theorem parseSimpleExpr_sound (hr : r.Sound defines) :
    Sound defines (.chain .or) (parseSimpleExpr defines r) :=
  parseChain_sound (j := .or) (parseChain_sound (j := .and) (parseUnary_sound hr) r) r

theorem compareValues_sound (defines : Symbols) {op : RelOp} {v w u : Value} {s s' : State}
    (h : compareValues op v w s = some (u, s')) (hok : s'.ok = true) :
    s' = s ∧ ∀ a b, Denotes (reading defines) a v → Denotes (reading defines) b w →
      Denotes (reading defines) (.compare op a b) u := by
  have hfailed {msg : String}
      (h : (fail msg >>= fun _ => (pure (.bool false) : IP Value)) s = some (u, s')) : False := by
    rw [failed_run h] at hok
    contradiction
  cases v with
  | bool x =>
    cases w with
    | bool y =>
      cases op with
      | eq =>
        cases h
        exact ⟨rfl, fun a b => .bools rfl⟩
      | ne =>
        cases h
        exact ⟨rfl, fun a b => .bools rfl⟩
      | _ => exact (hfailed h).elim
    | int y => cases op <;> exact (hfailed h).elim
  | int x =>
    cases w with
    | bool y => cases op <;> exact (hfailed h).elim
    | int y =>
      have hints : u = .bool (op.ints x y) ∧ s' = s := by
        cases op <;> cases h <;> exact ⟨rfl, rfl⟩
      obtain ⟨rfl, rfl⟩ := hints
      exact ⟨rfl, fun a b => .ints⟩

theorem parseExpr_sound (hr : r.Sound defines) : Sound defines .expr (parseExpr defines r) := by
  intro s v s' h hok
  obtain ⟨lhs, s₁, hlhs, h⟩ := bind_eq_some h
  rcases matchRelop_answer s₁ with ⟨op, src, hrun, hrelop, -⟩ | ⟨hrun, -⟩
  · rw [bind_of hrun] at h
    obtain ⟨rhs, s₂, hrhs, h⟩ := bind_eq_some h
    obtain ⟨rfl, hvalue⟩ := compareValues_sound defines h hok
    obtain ⟨hok₁, b, hb, hvb⟩ := parseSimpleExpr_sound hr _ _ _ hrhs hok
    obtain ⟨hok₀, a, ha, hva⟩ := parseSimpleExpr_sound hr _ _ _ hlhs hok₁
    exact ⟨hok₀, _, .compare ha hrelop hb, hvalue a b hva hvb⟩
  · rw [bind_of hrun] at h
    cases h
    obtain ⟨hok', e, hspells, hvalue⟩ := parseSimpleExpr_sound hr _ _ _ hlhs hok
    exact ⟨hok', e, .simple (by simpa using hspells), hvalue⟩

theorem routines_sound (n : Nat) : (routines defines n).Sound defines := by
  induction n with
  | zero =>
    refine ⟨?_, ?_⟩
    · intro s v s' h
      cases h
    · intro s v s' h
      cases h
  | succ n ih => exact ⟨parseExpr_sound ih, parseUnary_sound ih⟩

end Tp2cc.IfExpr
