import Mathlib.Algebra.Order.Ring.Nat
import Tp2cc.Parsing.Components
import Tp2cc.Runtime.ShortString

/-! `p_fexpand`: a path is made absolute with the home and the current directory, and its
`.` and `..` components are collapsed. -/
set_option autoImplicit false

namespace Tp2cc.Rt
open Parsing

inductive Errno where
  | erange
  | other
  deriving DecidableEq

/-- What the system answers: `getcwd` with the bytes of a buffer of the given size, or its
`errno`, and `getenv("HOME")`. -/
structure Environment where
  getcwd : Nat → Except Errno (List UInt8)
  home : Option (List UInt8)

def slash : UInt8 := 47
def dot : UInt8 := 46
def tilde : UInt8 := 126

def tp2ccToStdString {n : Capacity} (s : ShortString n) : List UInt8 := s.content

/-- `for (size_t sz = 4096; sz <= (1u << 20); sz *= 2)`, from a size on. -/
def cwdLoop (env : Environment) (sz : Nat) (h : 0 < sz) : List UInt8 :=
  if sz ≤ 2^20 then
    match env.getcwd sz with
    | .ok buf => cString (some buf)
    | .error errno =>
      if errno ≠ .erange then [] else cwdLoop env (sz*2) (Nat.mul_pos h Nat.two_pos)
  else []
termination_by 2^20+1-sz

/-- `while (h.size() > 1 && h.back() == '/') h.pop_back();` -/
def trimSlashes (h : List UInt8) : List UInt8 :=
  if h.length > 1 ∧ h.getLast? = some slash then trimSlashes h.dropLast else h
termination_by h.length
decreasing_by
  rw [List.length_dropLast]
  omega

def expandTilde (home : Option (List UInt8)) (path : List UInt8) : List UInt8 :=
  if path[0]? = some tilde ∧ (path.length = 1 ∨ path[1]? = some slash) then
    if cString home ≠ [] then trimSlashes (cString home) ++ path.drop 1 else path
  else path

def makeAbsolute (cwd path : List UInt8) : List UInt8 :=
  if path = [] ∨ path[0]? ≠ some slash then
    let base := if cwd = [] then [slash] else cwd
    let base := if base.getLast? ≠ some slash then base ++ [slash] else base
    base ++ path
  else path

def pushComponent (comps : List (List UInt8)) (c : List UInt8) : List (List UInt8) :=
  if c = [dot] then comps
  else if c = [dot, dot] then comps.dropLast
  else comps ++ [c]

/-- `for (size_t i = 0; i < path.size(); )`, on the characters from `i` on. -/
def collapseLoop (path : List UInt8) (comps : List (List UInt8)) : List (List UInt8) :=
  if path = [] then comps
  else
    let start := path.dropWhile (· = slash)
    let c := start.takeWhile (· ≠ slash)
    collapseLoop (start.dropWhile (· ≠ slash)) (if c ≠ [] then pushComponent comps c else comps)
termination_by path.length
decreasing_by
  rename_i h
  cases path with
  | nil => exact absurd rfl h
  | cons a path =>
    have hstart := (List.dropWhile_suffix (· = slash) (l := path)).length_le
    by_cases ha : a = slash
    · have hrest := (List.dropWhile_suffix (· ≠ slash) (l := path.dropWhile (· = slash))).length_le
      simp only [ha, decide_true, List.dropWhile_cons_of_pos, List.length_cons]
      omega
    · have hrest := (List.dropWhile_suffix (· ≠ slash) (l := path)).length_le
      simp only [ha, decide_false, Bool.false_eq_true, not_false_eq_true,
        List.dropWhile_cons_of_neg, ne_eq, decide_not, Bool.not_false, List.dropWhile_cons_of_pos,
        List.length_cons]
      simp only [ne_eq, decide_not] at hrest
      omega

/-- `for (size_t k = 0; k < comps.size(); ++k)`, from the component `k` on. -/
def joinLoop (out : List UInt8) (k : Nat) : List (List UInt8) → List UInt8
  | [] => out
  | c :: comps => joinLoop ((if k > 0 then out ++ [slash] else out) ++ c) (k+1) comps

theorem firstSize_pos : 0 < 4096 := Nat.succ_pos 4095

def expandedPath (env : Environment) (input : List UInt8) : List UInt8 :=
  let cwd := cwdLoop env 4096 firstSize_pos
  if input = [] then cwd
  else
    let path := makeAbsolute cwd (expandTilde env.home input)
    joinLoop [slash] 0 (collapseLoop path [])

def pFexpand (env : Environment) (s : ShortString .full) : ShortString .full :=
  tp2ccShortstringOfCStr .full (some (expandedPath env (tp2ccToStdString s)))

/-- The current directory is `d`: `getcwd` writes it with its terminator where it fits. -/
structure Environment.In (env : Environment) (d : List UInt8) : Prop where
  text : 0 ∉ d
  getcwd : ∀ size, env.getcwd size =
    if d.length < size then .ok (d ++ List.replicate (size-d.length) 0) else .error .erange

/-- An absolute path without empty, `.` and `..` components: the root, or a slash in front of
its components. -/
def AbsoluteNormal (path : List UInt8) : Prop :=
  path = [slash] ∨ ∃ behind, path = slash :: behind ∧
    ∀ c ∈ behind.splitOn slash, c ≠ [] ∧ c ≠ [dot] ∧ c ≠ [dot, dot]

structure PlainComponent (c : List UInt8) : Prop where
  ne_nil : c ≠ []
  text : 0 ∉ c
  inside : slash ∉ c
  ne_dot : c ≠ [dot]
  ne_dots : c ≠ [dot, dot]

def joined (comps : List (List UInt8)) : List UInt8 := slash :: [slash].intercalate comps

section
variable {env : Environment} {d : List UInt8}

theorem cString_append {b rest : List UInt8} (h : 0 ∉ b) (hrest : ∀ a ∈ rest.head?, a = 0) :
    cString (some (b ++ rest)) = b := by
  apply takeWhile_front
  · intro a ha
    simp only [ne_eq, decide_not, Bool.not_eq_eq_eq_not, Bool.not_true, decide_eq_false_iff_not]
    intro hzero
    exact h (hzero ▸ ha)
  · intro a ha
    simp [hrest a ha]

theorem cString_text {b : List UInt8} (h : 0 ∉ b) : cString (some b) = b := by
  simpa using @cString_append b [] h

theorem shortstringOfCStr_content {b : List UInt8} (h : 0 ∉ b) (hfit : b.length ≤ 255) :
    (tp2ccShortstringOfCStr .full (some b)).content = b := by
  rw [(tp2ccShortstringOfCStr_represents .full (some b)).content, cString_text h]
  exact List.take_of_length_le hfit

theorem zero_not_mem_cString (b : Option (List UInt8)) : 0 ∉ cString b := by
  cases b with
  | none => simp [cString]
  | some b =>
    intro h
    have hzero := List.mem_takeWhile_imp h
    simp at hzero

theorem cString_getcwd (h : env.In d) (n : Nat) : cString (some (d ++ List.replicate n 0)) = d := by
  apply cString_append h.text
  intro a ha
  exact List.eq_of_mem_replicate (List.mem_of_head? ha)

/-- The size stays a power of two, up to the largest one that the loop tries. -/
theorem cwdLoop_eq (h : env.In d) {k : Nat} (hk : k ≤ 20) (hpos : 0 < 2^k) :
    cwdLoop env (2^k) hpos = if d.length < 2^20 then d else [] := by
  induction hrest : 20-k generalizing k with
  | zero =>
    have hlast : k = 20 := by omega
    subst hlast
    rw [cwdLoop, if_pos (Nat.le_refl _), h.getcwd]
    by_cases hlen : d.length < 2^20
    · rw [if_pos hlen, if_pos hlen]
      exact cString_getcwd h _
    · rw [if_neg hlen, if_neg hlen]
      simp [cwdLoop]
  | succ n ih =>
    have hle : 2^k ≤ 2^20 := Nat.pow_le_pow_right (by decide) (by omega)
    rw [cwdLoop, if_pos hle, h.getcwd]
    by_cases hlen : d.length < 2^k
    · rw [if_pos hlen, if_pos (Nat.lt_of_lt_of_le hlen hle)]
      exact cString_getcwd h _
    · rw [if_neg hlen]
      exact @ih (k+1) (by omega) (Nat.pow_pos (by decide)) (by omega)

theorem collapseLoop_eq (path : List UInt8) (comps : List (List UInt8)) :
    collapseLoop path comps = (components slash path).foldl pushComponent comps := by
  fun_induction collapseLoop path comps with
  | case1 comps => rfl
  | case2 path comps hpath start c ih =>
    simp only [dite_eq_ite] at ih
    have hsplit : components slash path =
        components slash c ++ components slash (start.dropWhile (· ≠ slash)) := by
      rw [← components_dropWhile slash path]
      exact components_takeWhile slash start
    rw [ih, hsplit, List.foldl_append]
    by_cases hc : c = []
    · simp [hc, components_nil]
    · have hsep : slash ∉ c := fun hmem => by simpa using List.mem_takeWhile_imp hmem
      simp [hc, components_block hc hsep]

theorem joinLoop_cons (out : List UInt8) {k : Nat} (hk : 0 < k) (comps : List (List UInt8)) :
    joinLoop out k comps = out ++ (comps.map (slash :: ·)).flatten := by
  induction comps generalizing out k with
  | nil => simp [joinLoop]
  | cons c comps ih =>
    rw [joinLoop, if_pos hk, ih _ (Nat.succ_pos k)]
    simp

theorem joined_cons (c : List UInt8) (comps : List (List UInt8)) :
    joined (c :: comps) = slash :: c ++ (comps.map (slash :: ·)).flatten := by
  induction comps generalizing c with
  | nil => simp [joined]
  | cons e comps ih =>
    have hrest : [slash].intercalate (e :: comps) = e ++ (comps.map (slash :: ·)).flatten := by
      have hih := ih e
      simpa [joined] using hih
    rw [joined, List.intercalate_cons_cons, hrest]
    simp

theorem joinLoop_eq (comps : List (List UInt8)) : joinLoop [slash] 0 comps = joined comps := by
  cases comps with
  | nil => rfl
  | cons c comps =>
    rw [joinLoop, if_neg (Nat.lt_irrefl 0), joinLoop_cons _ (Nat.succ_pos 0), joined_cons]
    rfl

def resolved (path : List UInt8) : List (List UInt8) :=
  (components slash path).foldl pushComponent []

def fullPath (env : Environment) (input : List UInt8) : List UInt8 :=
  makeAbsolute (cwdLoop env 4096 firstSize_pos) (expandTilde env.home input)

theorem expandedPath_of_ne_nil (env : Environment) {input : List UInt8} (h : input ≠ []) :
    expandedPath env input = joined (resolved (fullPath env input)) := by
  simp only [expandedPath, if_neg h, joinLoop_eq, collapseLoop_eq]
  rfl

theorem cwdLoop_first (h : env.In d) {sz : Nat} (hsz : sz = 2^12) (hpos : 0 < sz) :
    cwdLoop env sz hpos = if d.length < 2^20 then d else [] := by
  subst hsz
  exact cwdLoop_eq h (by decide) hpos

theorem expandedPath_nil (h : env.In d) :
    expandedPath env [] = if d.length < 2^20 then d else [] := by
  rw [expandedPath, if_pos rfl]
  exact cwdLoop_first h (by decide) firstSize_pos

theorem pushComponent_plain {comps : List (List UInt8)} {c : List UInt8}
    (h : ∀ e ∈ comps, PlainComponent e) (hne : c ≠ []) (htext : 0 ∉ c) (hinside : slash ∉ c) :
    ∀ e ∈ pushComponent comps c, PlainComponent e := by
  by_cases hdot : c = [dot]
  · simpa [pushComponent, hdot] using h
  · by_cases hdots : c = [dot, dot]
    · intro e he
      rw [pushComponent, if_neg hdot, if_pos hdots] at he
      exact h e ((List.dropLast_sublist comps).mem he)
    · intro e he
      rw [pushComponent, if_neg hdot, if_neg hdots] at he
      cases List.mem_append.mp he with
      | inl he => exact h e he
      | inr he =>
        rw [List.mem_singleton.mp he]
        exact ⟨hne, htext, hinside, hdot, hdots⟩

theorem foldl_pushComponent_plain {cs comps : List (List UInt8)}
    (h : ∀ e ∈ comps, PlainComponent e) (hcs : ∀ c ∈ cs, c ≠ [] ∧ slash ∉ c ∧ 0 ∉ c) :
    ∀ e ∈ cs.foldl pushComponent comps, PlainComponent e := by
  induction cs generalizing comps with
  | nil => exact h
  | cons c cs ih =>
    obtain ⟨hne, hinside, htext⟩ := hcs c List.mem_cons_self
    exact ih (pushComponent_plain h hne htext hinside) fun e he => hcs e (List.mem_cons_of_mem c he)

theorem resolved_plain {path : List UInt8} (h : 0 ∉ path) :
    ∀ e ∈ resolved path, PlainComponent e := by
  apply foldl_pushComponent_plain
  · simp
  · intro c hc
    obtain ⟨hne, hinside, hmem⟩ := mem_components hc
    exact ⟨hne, hinside, fun hzero => h (hmem 0 hzero)⟩

theorem foldl_pushComponent_of_plain {cs : List (List UInt8)} (h : ∀ c ∈ cs, PlainComponent c)
    (comps : List (List UInt8)) : cs.foldl pushComponent comps = comps ++ cs := by
  induction cs generalizing comps with
  | nil => simp
  | cons c cs ih =>
    have hc := h c List.mem_cons_self
    rw [List.foldl_cons, pushComponent, if_neg hc.ne_dot, if_neg hc.ne_dots,
      ih fun e he => h e (List.mem_cons_of_mem c he)]
    simp

theorem joined_ne_nil (cs : List (List UInt8)) : joined cs ≠ [] := List.cons_ne_nil _ _

theorem components_joined {cs : List (List UInt8)} (h : ∀ c ∈ cs, PlainComponent c) :
    components slash (joined cs) = cs := by
  rw [joined, components_sep, components_intercalate]
  exact fun c hc => ⟨(h c hc).ne_nil, (h c hc).inside⟩

theorem resolved_joined {cs : List (List UInt8)} (h : ∀ c ∈ cs, PlainComponent c) :
    resolved (joined cs) = cs := by
  rw [resolved, components_joined h, foldl_pushComponent_of_plain h, List.nil_append]

theorem joined_text {cs : List (List UInt8)} (h : ∀ c ∈ cs, PlainComponent c) :
    0 ∉ joined cs := by
  cases cs with
  | nil => decide
  | cons c cs =>
    have hc := (h c List.mem_cons_self).text
    have hcs : ∀ e ∈ cs, 0 ∉ e := fun e he => (h e (List.mem_cons_of_mem c he)).text
    rw [joined_cons]
    simpa [hc, slash] using hcs

theorem absoluteNormal_joined {cs : List (List UInt8)} (h : ∀ c ∈ cs, PlainComponent c) :
    AbsoluteNormal (joined cs) := by
  cases cs with
  | nil => exact .inl rfl
  | cons c cs =>
    right
    refine ⟨_, rfl, ?_⟩
    rw [List.splitOn_intercalate slash (fun e he => (h e he).inside) (List.cons_ne_nil c cs)]
    exact fun e he => ⟨(h e he).ne_nil, (h e he).ne_dot, (h e he).ne_dots⟩

theorem AbsoluteNormal.joined_eq {path : List UInt8} (h : AbsoluteNormal path) (htext : 0 ∉ path) :
    ∃ cs, (∀ c ∈ cs, PlainComponent c) ∧ path = joined cs := by
  cases h with
  | inl h => exact ⟨[], by simp, h⟩
  | inr h =>
    obtain ⟨behind, hpath, hcs⟩ := h
    refine ⟨behind.splitOn slash, ?_, ?_⟩
    · intro c hc
      obtain ⟨hne, hdot, hdots⟩ := hcs c hc
      obtain ⟨hinside, hmem⟩ := mem_splitOn hc
      refine ⟨hne, ?_, hinside, hdot, hdots⟩
      intro hzero
      apply htext
      rw [hpath]
      exact List.mem_cons_of_mem slash (hmem 0 hzero)
    · rw [hpath, joined, List.intercalate_splitOn]

theorem mem_trimSlashes (h : List UInt8) : ∀ a ∈ trimSlashes h, a ∈ h := by
  fun_induction trimSlashes h with
  | case1 h hlast ih => exact fun a ha => (List.dropLast_sublist h).mem (ih a ha)
  | case2 h hlast => exact fun a ha => ha

theorem trimSlashes_ne_nil {h : List UInt8} (hne : h ≠ []) : trimSlashes h ≠ [] := by
  fun_induction trimSlashes h with
  | case1 h hlast ih =>
    apply ih
    intro hnil
    have hlen := congrArg List.length hnil
    rw [List.length_dropLast, List.length_nil] at hlen
    omega
  | case2 h hlast => exact hne

theorem expandTilde_text (home : Option (List UInt8)) {path : List UInt8} (h : 0 ∉ path) :
    0 ∉ expandTilde home path := by
  unfold expandTilde
  split
  · split
    · simp only [List.mem_append, not_or]
      exact ⟨fun hzero => zero_not_mem_cString home (mem_trimSlashes _ 0 hzero),
        fun hzero => h (List.mem_of_mem_drop hzero)⟩
    · exact h
  · exact h

theorem expandTilde_ne_nil (home : Option (List UInt8)) {path : List UInt8} (h : path ≠ []) :
    expandTilde home path ≠ [] := by
  unfold expandTilde
  split
  · split
    · rename_i hhome
      simp [trimSlashes_ne_nil hhome]
    · exact h
  · exact h

theorem expandTilde_append (home : Option (List UInt8)) {path behind : List UInt8}
    (h : path ≠ []) (hbehind : behind.head? = some slash) :
    expandTilde home (path ++ behind) = expandTilde home path ++ behind := by
  cases behind with
  | nil => simp at hbehind
  | cons b behind =>
    cases hbehind
    cases path with
    | nil => simp at h
    | cons a path =>
      cases path with
      | nil =>
        by_cases ha : a = tilde <;> by_cases hhome : cString home = [] <;>
          simp [expandTilde, ha, hhome]
      | cons c path =>
        by_cases ha : a = tilde ∧ c = slash <;> by_cases hhome : cString home = [] <;>
          simp [expandTilde, ha, hhome]

theorem makeAbsolute_text {cwd path : List UInt8} (hcwd : 0 ∉ cwd) (h : 0 ∉ path) :
    0 ∉ makeAbsolute cwd path := by
  have hslash : 0 ∉ [slash] := by decide
  unfold makeAbsolute
  split
  · have hbase : 0 ∉ (if cwd = [] then [slash] else cwd) := by
      split
      · exact hslash
      · exact hcwd
    generalize (if cwd = [] then [slash] else cwd) = base at hbase
    simp only [List.mem_append, not_or]
    constructor
    · split
      · simp only [List.mem_append, not_or]
        exact ⟨hbase, hslash⟩
      · exact hbase
    · exact h
  · exact h

theorem makeAbsolute_append (cwd : List UInt8) {path : List UInt8} (h : path ≠ [])
    (behind : List UInt8) : makeAbsolute cwd (path ++ behind) = makeAbsolute cwd path ++ behind := by
  cases path with
  | nil => simp at h
  | cons a path =>
    by_cases ha : a = slash <;> simp [makeAbsolute, ha]

theorem fullPath_text (h : env.In d) {input : List UInt8} (hinput : 0 ∉ input) :
    0 ∉ fullPath env input := by
  apply makeAbsolute_text
  · rw [cwdLoop_first h (by decide)]
    split
    · exact h.text
    · exact List.not_mem_nil
  · exact expandTilde_text env.home hinput

theorem fullPath_append {input behind : List UInt8} (h : input ≠ [])
    (hbehind : behind.head? = some slash) :
    fullPath env (input ++ behind) = fullPath env input ++ behind := by
  rw [fullPath, expandTilde_append env.home h hbehind,
    makeAbsolute_append _ (expandTilde_ne_nil env.home h)]
  rfl

theorem fullPath_slash (env : Environment) (behind : List UInt8) :
    fullPath env (slash :: behind) = slash :: behind := by
  have hslash : slash ≠ tilde := by decide
  simp [fullPath, expandTilde, makeAbsolute, hslash]

theorem expandedPath_joined (h : env.In d) (hd : AbsoluteNormal d) {input : List UInt8}
    (hinput : 0 ∉ input) (hcwd : input ≠ [] ∨ d.length < 2^20) :
    ∃ cs, (∀ c ∈ cs, PlainComponent c) ∧ expandedPath env input = joined cs := by
  by_cases hnil : input = []
  · have hlen : d.length < 2^20 := hcwd.resolve_left fun hne => hne hnil
    rw [hnil, expandedPath_nil h, if_pos hlen]
    exact hd.joined_eq h.text
  · exact ⟨_, resolved_plain (fullPath_text h hinput), expandedPath_of_ne_nil env hnil⟩

theorem expandedPath_of_joined (env : Environment) {cs : List (List UInt8)}
    (h : ∀ c ∈ cs, PlainComponent c) : expandedPath env (joined cs) = joined cs := by
  have hfull : fullPath env (joined cs) = joined cs := fullPath_slash env _
  rw [expandedPath_of_ne_nil env (joined_ne_nil cs), hfull, resolved_joined h]

theorem resolved_append (front behind : List UInt8) : resolved (front ++ slash :: behind) =
    (components slash behind).foldl pushComponent (resolved front) := by
  rw [resolved, components_append, List.foldl_append]
  rfl

theorem exists_root (h : env.In d) {input : List UInt8} (htext : 0 ∉ input)
    (hroot : input = [] ∨ expandedPath env input = [slash]) :
    ∃ front, resolved front = [] ∧
      ∀ behind, fullPath env (input ++ slash :: behind) = front ++ slash :: behind := by
  by_cases hnil : input = []
  · subst hnil
    exact ⟨[], rfl, fullPath_slash env⟩
  · refine ⟨fullPath env input, ?_, fun behind => fullPath_append hnil rfl⟩
    have hpath := hroot.resolve_left hnil
    rw [expandedPath_of_ne_nil env hnil] at hpath
    rw [← components_joined (resolved_plain (fullPath_text h htext)), hpath]
    rfl

theorem expandedPath_root (h : env.In d) {input behind : List UInt8} (htext : 0 ∉ input)
    (hroot : input = [] ∨ expandedPath env input = [slash])
    (hbehind : ∀ b ∈ behind.head?, b = slash) :
    expandedPath env (input ++ slash :: ([dot, dot] ++ behind)) =
      expandedPath env (input ++ slash :: behind) := by
  obtain ⟨front, hfront, hfull⟩ := exists_root h htext hroot
  have hdots : components slash ([dot, dot] ++ behind) =
      [dot, dot] :: components slash behind := by
    rw [components_front hbehind]
    rfl
  rw [expandedPath_of_ne_nil env (by simp), expandedPath_of_ne_nil env (by simp), hfull, hfull,
    resolved_append, resolved_append, hfront, hdots]
  rfl

theorem pFexpand_content (h : env.In d) (hd : AbsoluteNormal d) {s : ShortString .full}
    (hs : 0 ∉ s.content) (hcwd : s.content ≠ [] ∨ d.length < 2^20)
    (hfit : (expandedPath env s.content).length ≤ 255) :
    (pFexpand env s).content = expandedPath env s.content := by
  obtain ⟨cs, hcs, hpath⟩ := expandedPath_joined h hd hs hcwd
  apply shortstringOfCStr_content _ hfit
  rw [hpath]
  exact joined_text hcs

/-- The last part is about a `..` behind a front `a` that the root is the expansion of. -/
theorem pFexpand_normal (h : env.In d) (hd : AbsoluteNormal d) {s : ShortString .full}
    (hs : 0 ∉ s.content) (hcwd : s.content ≠ [] ∨ d.length < 2^20)
    (hfit : (expandedPath env s.content).length ≤ 255) :
    AbsoluteNormal (pFexpand env s).content ∧ pFexpand env (pFexpand env s) = pFexpand env s ∧
      ∀ a behind, s.content = a ++ slash :: ([dot, dot] ++ behind) →
        (a = [] ∨ expandedPath env a = [slash]) → (∀ b ∈ behind.head?, b = slash) →
        ∀ t : ShortString .full, t.content = a ++ slash :: behind →
          pFexpand env s = pFexpand env t := by
  have hcontent := pFexpand_content h hd hs hcwd hfit
  obtain ⟨cs, hcs, hpath⟩ := expandedPath_joined h hd hs hcwd
  refine ⟨?_, ?_, ?_⟩
  · rw [hcontent, hpath]
    exact absoluteNormal_joined hcs
  · have hagain : expandedPath env (pFexpand env s).content = expandedPath env s.content := by
      rw [hcontent, hpath, expandedPath_of_joined env hcs]
    exact congrArg (fun path => tp2ccShortstringOfCStr .full (some path)) hagain
  · intro a behind hsplit hroot hbehind t ht
    have htext : 0 ∉ a := by
      intro hzero
      apply hs
      rw [hsplit]
      exact List.mem_append_left _ hzero
    have hparent := expandedPath_root h htext hroot hbehind
    rw [← hsplit, ← ht] at hparent
    exact congrArg (fun path => tp2ccShortstringOfCStr .full (some path)) hparent

end

def systemIn (d : List UInt8) (home : Option (List UInt8)) : Environment :=
  ⟨fun size => if d.length < size then .ok (d ++ List.replicate (size-d.length) 0)
    else .error .erange, home⟩

theorem systemIn_in {d : List UInt8} (h : 0 ∉ d) (home : Option (List UInt8)) :
    (systemIn d home).In d := ⟨h, fun _ => rfl⟩

def aboveRoot : List UInt8 := [47, 97, 47, 46, 46, 47, 46, 46, 47, 98]

theorem expandedPath_aboveRoot (env : Environment) : expandedPath env aboveRoot = [47, 98] := by
  have hfull : fullPath env aboveRoot = aboveRoot := fullPath_slash env _
  rw [expandedPath_of_ne_nil env (by decide), hfull]
  decide

theorem pFexpand_normal_aboveRoot :
    AbsoluteNormal (pFexpand (systemIn [slash] none)
      (tp2ccShortstringOfCStr .full (some aboveRoot))).content := by
  have hcontent : (tp2ccShortstringOfCStr .full (some aboveRoot)).content = aboveRoot := by decide
  have hfit : (expandedPath (systemIn [slash] none)
      (tp2ccShortstringOfCStr .full (some aboveRoot)).content).length ≤ 255 := by
    rw [hcontent, expandedPath_aboveRoot]
    decide
  exact (pFexpand_normal (systemIn_in (by decide) none) (.inl rfl) (by decide) (.inr (by decide))
    hfit).1

theorem joined_replicate_length {n : Nat} (hn : n ≠ 0) (c : List UInt8) :
    (joined (List.replicate n c)).length = n*(c.length+1) := by
  cases n with
  | zero => exact absurd rfl hn
  | succ n =>
    rw [List.replicate_succ, joined_cons, Nat.succ_mul]
    simp
    omega

/-- A directory whose path has more characters than the largest buffer holds. -/
def deepDirectory : List UInt8 := joined (List.replicate (2^19) [97])

theorem mem_deepDirectory (n : Nat) : ∀ c ∈ List.replicate n [(97 : UInt8)], PlainComponent c := by
  intro c hc
  rw [List.eq_of_mem_replicate hc]
  exact ⟨by decide, by decide, by decide, by decide, by decide⟩

theorem deepDirectory_text : 0 ∉ deepDirectory := joined_text (mem_deepDirectory _)

theorem deepDirectory_normal : AbsoluteNormal deepDirectory :=
  absoluteNormal_joined (mem_deepDirectory _)

theorem deepDirectory_length : deepDirectory.length = 2^20 :=
  joined_replicate_length (by decide) [97]

theorem pFexpand_deep :
    (systemIn deepDirectory none).In deepDirectory ∧ AbsoluteNormal deepDirectory ∧
      0 ∉ (tp2ccShortstringOfCStr .full none).content ∧
      (expandedPath (systemIn deepDirectory none)
        (tp2ccShortstringOfCStr .full none).content).length ≤ 255 ∧
      ¬ AbsoluteNormal (pFexpand (systemIn deepDirectory none)
        (tp2ccShortstringOfCStr .full none)).content := by
  have hin := systemIn_in deepDirectory_text none
  have hcontent : (tp2ccShortstringOfCStr .full none).content = [] := by decide
  have hpath : expandedPath (systemIn deepDirectory none) [] = [] := by
    rw [expandedPath_nil hin, deepDirectory_length, if_neg (Nat.lt_irrefl _)]
  have hresult : pFexpand (systemIn deepDirectory none) (tp2ccShortstringOfCStr .full none) =
      tp2ccShortstringOfCStr .full (some []) := by
    rw [pFexpand, tp2ccToStdString, hcontent, hpath]
  have hempty : (tp2ccShortstringOfCStr .full (some [])).content = [] := by decide
  rw [hresult, hcontent, hpath, hempty]
  refine ⟨hin, deepDirectory_normal, by decide, by decide, ?_⟩
  intro hnormal
  cases hnormal with
  | inl h => simp at h
  | inr h => simp at h

end Tp2cc.Rt
