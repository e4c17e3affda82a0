import Mathlib.Data.List.Basic

/-! Recipe lines: how make reads and expands one, and how the shell splits it into words. -/
set_option autoImplicit false

namespace Machine

def ascii (s : String) : List UInt8 := s.toList.map fun c => .ofNat c.toNat

namespace Make

/-- The rest of a recipe line. A newline ends it unless an odd number of backslashes stands before
it. Such a newline stays, and a tab right behind it goes. -/
def recipeLine : Bool → Bool → List UInt8 → List UInt8
  | _, _, [] => []
  | escaped, joined, c :: cs =>
    if c = 10 then if escaped then c :: recipeLine false true cs else []
    else if c = 9 ∧ joined then recipeLine false false cs
    else c :: recipeLine (c = 92 && !escaped) false cs

def recipe : List UInt8 → Option (List UInt8)
  | c :: cs => if c = 9 then some (recipeLine false false cs) else none
  | [] => none

/-- Where expansion stands: in text, behind a dollar, or in a reference that `close` ends. -/
inductive Expansion where
  | text
  | dollar
  | inside (opening closing : UInt8) (depth : Nat) (name : List UInt8)

/-- `reference` is what a variable or function reference stands for, by the text between its
brackets. An open reference at the end of the line is an error. -/
def expand (reference : List UInt8 → List UInt8) : Expansion → List UInt8 → Option (List UInt8)
  | .inside _ _ _ _, [] => none
  | _, [] => some []
  | .text, c :: cs =>
    if c = 36 then expand reference .dollar cs else (expand reference .text cs).map (c :: ·)
  | .dollar, c :: cs =>
    if c = 36 then (expand reference .text cs).map (c :: ·)
    else if c = 40 then expand reference (.inside 40 41 0 []) cs
    else if c = 123 then expand reference (.inside 123 125 0 []) cs
    else (expand reference .text cs).map (reference [c] ++ ·)
  | .inside opening closing depth name, c :: cs =>
    if c = closing then
      match depth with
      | 0 => (expand reference .text cs).map (reference name ++ ·)
      | depth+1 => expand reference (.inside opening closing depth (name ++ [c])) cs
    else if c = opening then expand reference (.inside opening closing (depth+1) (name ++ [c])) cs
    else expand reference (.inside opening closing depth (name ++ [c])) cs

/-- Each newline joins two lines: it stands behind an odd number of backslashes and not before a
tab. The flags are what stands before the text. -/
def joins : Bool → Bool → List UInt8 → Bool
  | _, _, [] => true
  | escaped, joined, c :: cs =>
    (c ≠ 10 || escaped) && (c ≠ 9 || !joined) && joins (c = 92 && !escaped) (c = 10) cs

def layout (c : UInt8) : Bool := c = 10 || c = 9

def inert (c : UInt8) : Prop := c ≠ 9 ∧ c ≠ 10 ∧ c ≠ 92

section
variable {escaped joined : Bool} {c : UInt8} {cs : List UInt8}

theorem recipeLine_inert (h : inert c) :
    recipeLine escaped joined (c :: cs) = c :: recipeLine false false cs := by
  simp [recipeLine, h.1, h.2.1, h.2.2]

theorem recipeLine_end (xs ys : List UInt8) (h : inert c) :
    recipeLine escaped joined (xs ++ c :: 10 :: ys) = recipeLine escaped joined (xs ++ [c]) := by
  induction xs generalizing escaped joined with
  | nil =>
    simp only [List.nil_append, recipeLine_inert h]
    simp [recipeLine]
  | cons x xs ih => simp only [List.cons_append, recipeLine, ih]

theorem recipeLine_countP (p : UInt8 → Bool) :
    (recipeLine escaped joined cs).countP p ≤ cs.countP p := by
  induction cs generalizing escaped joined with
  | nil => simp [recipeLine]
  | cons c cs ih =>
    have h₁ : (recipeLine false true cs).countP p ≤ cs.countP p := ih
    have h₂ : (recipeLine false false cs).countP p ≤ cs.countP p := ih
    have h₃ : (recipeLine (c = 92 && !escaped) false cs).countP p ≤ cs.countP p := ih
    simp only [recipeLine]
    split
    · split
      · simp only [List.countP_cons]
        omega
      · simp
    split
    · simp only [List.countP_cons]
      omega
    · simp only [List.countP_cons]
      omega

theorem recipeLine_loses (h : joins escaped joined cs = false) :
    (recipeLine escaped joined cs).countP layout < cs.countP layout := by
  induction cs generalizing escaped joined with
  | nil => simp [joins] at h
  | cons c cs ih =>
    simp only [recipeLine]
    by_cases hnewline : c = 10
    · subst hnewline
      cases escaped with
      | false => simp [layout]
      | true =>
        have hrest : joins false true cs = false := by simpa [joins] using h
        simpa [layout] using ih hrest
    · rw [if_neg hnewline]
      by_cases htab : c = 9 ∧ joined
      · rw [if_pos htab]
        have hle : (recipeLine false false cs).countP layout ≤ cs.countP layout :=
          recipeLine_countP layout
        simp only [List.countP_cons, htab.1]
        simp only [layout, decide_true, Bool.or_true, if_true]
        exact Nat.lt_succ_of_le hle
      · rw [if_neg htab]
        have hrest : joins (c = 92 && !escaped) false cs = false := by
          simp only [joins, hnewline, decide_false] at h
          cases joined <;> simp_all
        have hlt := ih hrest
        simp only [List.countP_cons]
        omega

theorem recipeLine_eq (h : joins escaped joined cs = true) : recipeLine escaped joined cs = cs := by
  induction cs generalizing escaped joined with
  | nil => rfl
  | cons c cs ih =>
    simp only [joins, Bool.and_eq_true, Bool.or_eq_true, decide_eq_true_eq, Bool.not_eq_true'] at h
    simp only [recipeLine]
    by_cases hnewline : c = 10
    · subst hnewline
      have hescaped : escaped = true := by simpa using h.1.1
      rw [if_pos rfl, if_pos hescaped, ih (by simpa using h.2)]
    · have hjoined : ¬ (c = 9 ∧ joined = true) := by
        intro htab
        cases h.1.2 with
        | inl hne => exact hne htab.1
        | inr hfalse => simp [hfalse] at htab
      rw [if_neg hnewline, if_neg hjoined, ih]
      simpa [hnewline] using h.2

def backslashes (xs : List UInt8) : Nat := (xs.reverse.takeWhile (· = 92)).length

@[simp] theorem backslashes_concat (xs : List UInt8) (c : UInt8) :
    backslashes (xs ++ [c]) = if c = 92 then backslashes xs + 1 else 0 := by
  by_cases hc : c = 92
  · simp [backslashes, hc]
  · simp [backslashes, hc]

theorem odd_backslashes_concat (xs : List UInt8) (c : UInt8) :
    decide (backslashes (xs ++ [c]) % 2 = 1) = (c = 92 && !decide (backslashes xs % 2 = 1)) := by
  by_cases hc : c = 92
  · have hsucc : (backslashes xs + 1) % 2 = 1 ↔ ¬ backslashes xs % 2 = 1 := by omega
    rw [backslashes_concat, if_pos hc, decide_eq_decide.mpr hsucc, decide_not]
    simp [hc]
  · simp [hc]

theorem joins_behind (pre cs : List UInt8) :
    joins (backslashes pre % 2 = 1) (pre.getLast? = some 10) cs = true ↔
      (∀ xs ys, cs = xs ++ 10 :: ys → backslashes (pre ++ xs) % 2 = 1 ∧ ys.head? ≠ some 9) ∧
      (pre.getLast? = some 10 → cs.head? ≠ some 9) := by
  induction cs generalizing pre with
  | nil => simp [joins]
  | cons c cs ih =>
    have hrest := ih (pre ++ [c])
    rw [odd_backslashes_concat] at hrest
    simp only [List.getLast?_concat, Option.some.injEq, List.append_assoc, List.singleton_append]
      at hrest
    simp only [joins, Bool.and_eq_true, hrest, Bool.or_eq_true, decide_eq_true_eq,
      Bool.not_eq_true', decide_eq_false_iff_not, List.head?_cons, Option.some.injEq, ne_eq]
    constructor
    · intro h
      refine ⟨?_, fun hlast hc => h.1.2.elim (fun hne => hne hc) fun hno => hno hlast⟩
      intro xs ys hcs
      cases xs with
      | nil =>
        obtain ⟨hc, hys⟩ := List.cons.inj hcs
        rw [List.append_nil, ← hys]
        exact ⟨h.1.1.resolve_left fun hne => hne hc, h.2.2 hc⟩
      | cons x xs =>
        obtain ⟨hc, htail⟩ := List.cons.inj hcs
        rw [← hc]
        exact h.2.1 xs ys htail
    · intro h
      refine ⟨⟨?_, ?_⟩, ?_, ?_⟩
      · by_cases hc : c = 10
        · subst hc
          have hodd := (h.1 [] cs rfl).1
          rw [List.append_nil] at hodd
          exact .inr hodd
        · exact .inl hc
      · by_cases hlast : pre.getLast? = some 10
        · exact .inl (h.2 hlast)
        · exact .inr hlast
      · intro xs ys htail
        have hodd := h.1 (c :: xs) ys (by rw [htail, List.cons_append])
        exact hodd
      · intro hc
        subst hc
        exact (h.1 [] cs rfl).2

theorem joins_iff (cs : List UInt8) :
    joins false false cs = true ↔
      ∀ xs ys, cs = xs ++ 10 :: ys → backslashes xs % 2 = 1 ∧ ys.head? ≠ some 9 := by
  have h := joins_behind [] cs
  simpa [backslashes] using h

end

section
variable {reference : List UInt8 → List UInt8} {cs : List UInt8}

theorem expand_text (h : 36 ∉ cs) : expand reference .text cs = some cs := by
  induction cs with
  | nil => rfl
  | cons c cs ih =>
    simp only [List.mem_cons, not_or] at h
    rw [expand, if_neg (Ne.symm h.1), ih h.2, Option.map_some]

theorem expand_count (h : ∀ name, 36 ∉ reference name) {s : Expansion} {us : List UInt8}
    (hexpand : expand reference s cs = some us) : us.count 36 ≤ cs.count 36 := by
  have hnone : ∀ name, (reference name).count 36 = 0 := fun name => List.count_eq_zero.mpr (h name)
  induction cs generalizing s us with
  | nil => cases s <;> simp_all [expand]
  | cons c cs ih =>
    have hcons : cs.count 36 ≤ (c :: cs).count 36 := List.count_le_count_cons
    cases s with
    | text =>
      simp only [expand] at hexpand
      split at hexpand
      · exact Nat.le_trans (ih hexpand) hcons
      · obtain ⟨vs, hvs, hus⟩ := Option.map_eq_some_iff.mp hexpand
        have hle := ih hvs
        simp only [← hus, List.count_cons]
        omega
    | dollar =>
      simp only [expand] at hexpand
      split at hexpand
      · obtain ⟨vs, hvs, hus⟩ := Option.map_eq_some_iff.mp hexpand
        have hle := ih hvs
        simp only [← hus, List.count_cons]
        omega
      split at hexpand
      · exact Nat.le_trans (ih hexpand) hcons
      split at hexpand
      · exact Nat.le_trans (ih hexpand) hcons
      · obtain ⟨vs, hvs, hus⟩ := Option.map_eq_some_iff.mp hexpand
        have hle := ih hvs
        simp only [← hus, List.count_append, hnone]
        omega
    | inside opening closing depth name =>
      cases depth with
      | zero =>
        simp only [expand] at hexpand
        split at hexpand
        · obtain ⟨vs, hvs, hus⟩ := Option.map_eq_some_iff.mp hexpand
          have hle := ih hvs
          simp only [← hus, List.count_append, hnone]
          omega
        split at hexpand <;> exact Nat.le_trans (ih hexpand) hcons
      | succ depth =>
        simp only [expand] at hexpand
        split at hexpand
        · exact Nat.le_trans (ih hexpand) hcons
        split at hexpand <;> exact Nat.le_trans (ih hexpand) hcons

theorem expand_loses (h : ∀ name, 36 ∉ reference name) {us : List UInt8} (hmem : 36 ∈ cs)
    (hexpand : expand reference .text cs = some us) : us.count 36 < cs.count 36 := by
  induction cs generalizing us with
  | nil => simp at hmem
  | cons c cs ih =>
    simp only [expand] at hexpand
    split at hexpand
    · rename_i hc
      have hle := expand_count h hexpand
      simp only [hc, List.count_cons_self]
      omega
    · rename_i hc
      obtain ⟨vs, hvs, hus⟩ := Option.map_eq_some_iff.mp hexpand
      have hlt := ih (by simpa [Ne.symm hc] using hmem) hvs
      simp only [← hus, List.count_cons]
      omega

end

end Make

namespace Shell

inductive Quoting where
  | plain
  | escape
  | single
  | double
  | doubleEscape
  deriving DecidableEq

/-- Unquoted, these are operators, expansions or patterns and have no place in a plain word. -/
def special (c : UInt8) : Bool := (ascii "|&;<>()$*?[#~\x60\n").contains c

def put (word : Option (List UInt8)) (cs : List UInt8) : Option (List UInt8) :=
  some (word.getD [] ++ cs)

/-- The words a byte ends, and how quoting and the open word go on. -/
def step : Quoting → Option (List UInt8) → UInt8 →
    Option (List (List UInt8) × Quoting × Option (List UInt8))
  | .plain, word, c =>
    if c = 32 ∨ c = 9 then some (word.toList,.plain,none)
    else if c = 39 then some ([],.single,put word [])
    else if c = 34 then some ([],.double,put word [])
    else if c = 92 then some ([],.escape,word)
    else if special c then none
    else some ([],.plain,put word [c])
  | .escape, word, c =>
    if c = 10 then some ([],.plain,word) else some ([],.plain,put word [c])
  | .single, word, c => if c = 39 then some ([],.plain,word) else some ([],.single,put word [c])
  | .double, word, c =>
    if c = 34 then some ([],.plain,word)
    else if c = 92 then some ([],.doubleEscape,word)
    else if c = 36 ∨ c = 96 then none
    else some ([],.double,put word [c])
  | .doubleEscape, word, c =>
    if c = 10 then some ([],.double,word)
    else if c = 34 ∨ c = 36 ∨ c = 92 ∨ c = 96 then some ([],.double,put word [c])
    else some ([],.double,put word [92, c])

def words : Quoting → Option (List UInt8) → List UInt8 → Option (List (List UInt8))
  | .plain, word, [] => some word.toList
  | _, _, [] => none
  | q, word, c :: cs =>
    match step q word c with
    | some (done, q, word) => (words q word cs).map (done ++ ·)
    | none => none

def held (q : Quoting) (word : Option (List UInt8)) : List UInt8 :=
  word.getD [] ++ if q = .doubleEscape then [92] else []

section
variable {q q' : Quoting} {word word' : Option (List UInt8)} {cs : List UInt8}
  {done ws : List (List UInt8)} {c : UInt8}

theorem words_append_space (ys : List UInt8) (h : words q word cs = some ws) :
    words q word (cs ++ 32 :: ys) = (words .plain none ys).map (ws ++ ·) := by
  induction cs generalizing q word ws with
  | nil => cases q <;> simp_all [words, step]
  | cons c cs ih =>
    simp only [List.cons_append, words] at h ⊢
    cases hstep : step q word c with
    | none => simp [hstep] at h
    | some r =>
      simp only [hstep, Option.map_eq_some_iff] at h
      obtain ⟨vs, hvs, hws⟩ := h
      simp only [ih hvs, Option.map_map, ← hws]
      congr 1
      funext xs
      simp

theorem step_countP (p : UInt8 → Bool) (h : step q word c = some (done,q',word')) :
    done.flatten.countP p + (held q' word').countP p ≤
      (held q word).countP p + [c].countP p := by
  cases q with
  | plain =>
    simp only [step] at h
    split at h
    · cases h
      cases word <;> simp [held]
    split at h
    · cases h
      simp [held, put]
    split at h
    · cases h
      simp [held, put]
    split at h
    · cases h
      simp [held]
    split at h
    · cases h
    · cases h
      simp [held, put]
  | escape =>
    simp only [step] at h
    split at h <;> cases h <;> simp [held, put]
  | single =>
    simp only [step] at h
    split at h <;> cases h <;> simp [held, put]
  | double =>
    simp only [step] at h
    split at h
    · cases h
      simp [held]
    split at h
    · rename_i hback
      cases h
      simp [held, hback]
    split at h
    · cases h
    · cases h
      simp [held, put]
  | doubleEscape =>
    simp only [step] at h
    split at h
    · cases h
      simp [held]
      omega
    split at h
    · cases h
      simp [held, put]
    · cases h
      simp [held, put, List.countP_cons]
      omega

theorem words_countP (p : UInt8 → Bool) (h : words q word cs = some ws) :
    ws.flatten.countP p ≤ (held q word).countP p + cs.countP p := by
  induction cs generalizing q word ws with
  | nil =>
    cases q with
    | plain =>
      simp only [words, Option.some.injEq] at h
      subst h
      cases word <;> simp [held]
    | _ => simp [words] at h
  | cons c cs ih =>
    simp only [words] at h
    cases hstep : step q word c with
    | none => simp [hstep] at h
    | some r =>
      simp only [hstep, Option.map_eq_some_iff] at h
      obtain ⟨vs, hvs, hws⟩ := h
      have hle := step_countP p hstep
      have hrest := ih hvs
      simp only [← hws, List.flatten_append, List.countP_append, List.countP_cons, List.countP_nil]
        at hle ⊢
      omega

end

end Shell

end Machine
