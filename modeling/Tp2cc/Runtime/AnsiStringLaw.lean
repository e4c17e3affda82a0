import Tp2cc.Runtime.AnsiString

set_option autoImplicit false

namespace Tp2cc.Rt
open Machine

/-- `Insert` on the content: the place is moved into the string or right behind it. -/
def insertBytes (src dest : List UInt8) (pos : Int) : List UInt8 :=
  dest.take (pos-1).toNat ++ src ++ dest.drop (pos-1).toNat

namespace StringArg

def Valid (m : Memory) : StringArg → Prop
  | .ansi d => m.Valid d
  | .outside bytes => (bytes.length : Int) < IntType.int.hi

def bytes (m : Memory) : StringArg → List UInt8
  | .ansi d => m.content d
  | .outside bytes => bytes

end StringArg

section
variable {m : Memory} {d : DataPtr}

theorem ensureUnique_yields (hd : m.Valid d) :
    Yields m (AnsiString.ensureUnique m d) (m.content d) ¬OwnedEmpty m d := by
  cases ensureUnique_cases hd with
  | inl h =>
    obtain ⟨hown, p, hp, hcontent⟩ := h
    rw [hp, ← hcontent]
    simpa only [hown, not_false_iff] using yields_alloc m p
  | inr h =>
    obtain ⟨hown, hnil, c, hc⟩ := h
    rw [hc, hnil]
    exact ⟨_, _, rfl, ⟨.refl _, List.suffix_cons c _⟩, trivial, rfl, by simp [hown]⟩

theorem charRefAssign_yields (hd : m.Valid d) {i : Int} (h₀ : 0 ≤ i)
    (h : i ≤ (m.content d).length) (c : UInt8) :
    Yields m (AnsiString.charRefAssign m d i c) ((m.content d).set i.toNat c)
      ¬OwnedEmpty m d := by
  cases ensureUnique_cases hd with
  | inl hcase =>
    obtain ⟨hown, p, hp, hcontent⟩ := hcase
    have hyields := yields_alloc m (p.write i.toNat [c])
    rw [← hcontent, p.content_length] at h
    rw [AnsiString.charRefAssign, hp]
    simp only [Option.bind_eq_bind, Option.bind_some, hown, not_false_iff, store_alloc m h₀ h]
    rwa [p.write_singleton_content, hcontent] at hyields
  | inr hcase =>
    obtain ⟨hown, hnil, b, hb⟩ := hcase
    rw [hnil] at h ⊢
    have hi : i = 0 := by simp only [List.length_nil] at h; omega
    rw [AnsiString.charRefAssign, hb, hi]
    refine ⟨⟨m.payloads, c :: b :: m.emptyStores⟩, .empty, rfl,
      ⟨.refl _, List.suffix_append [c, b] _⟩, trivial, rfl, ?_⟩
    have hne : c :: b :: m.emptyStores ≠ m.emptyStores := by
      intro heq
      have hlen := congrArg List.length heq
      simp only [List.length_cons] at hlen
      omega
    simp [hown, hne]

theorem tp2ccStringLength_eq (m : Memory) (a : StringArg) :
    tp2ccStringLength m a = (a.bytes m).length := by
  cases a with
  | ansi d => exact m.length_eq d
  | outside bytes => rfl

theorem copyFrom_alloc {a : StringArg} (ha : a.Valid m) (p : Payload) (off : Nat)
    (h : off+(a.bytes m).length ≤ p.len+1) :
    copyFrom (m.alloc p).1 (m.alloc p).2 off a (a.bytes m).length =
      some (m.alloc (p.write off (a.bytes m))).1 := by
  cases a with
  | ansi d =>
    rw [copyFrom, Memory.move_alloc ha p off (by simp [StringArg.bytes]) h]
    simp [StringArg.bytes]
  | outside bytes =>
    rw [copyFrom, StringArg.bytes, List.take_length]
    exact Memory.storeBytes_alloc m p off _ h

theorem doIf_copyFrom_alloc {a : StringArg} (ha : a.Valid m) (p : Payload) (off : Nat)
    (h : off+(a.bytes m).length ≤ p.len+1) :
    (m.alloc p).1.doIf (((a.bytes m).length : Int) > 0)
        (fun m' => copyFrom m' (m.alloc p).2 off a (a.bytes m).length) =
      some (m.alloc (p.write off (a.bytes m))).1 := by
  apply Memory.doIf_eq
  · intro _
    exact copyFrom_alloc ha p off h
  · intro hpos
    rw [List.length_eq_zero_iff.mp (by omega : (a.bytes m).length = 0)]
    rfl

theorem write_ofBytes {len : Nat} (hlen : (len : Int) < IntType.int.hi) {x y : List UInt8}
    (h : x.length+y.length ≤ len+1) :
    (Payload.ofBytes len hlen x).write x.length y = .ofBytes len hlen (x ++ y) := by
  apply Payload.ext
  · rfl
  · have hroom : x.length+y.length ≤ (x ++ List.replicate (len+1-x.length) (0 : UInt8)).length := by
      simp only [List.length_append, List.length_replicate]
      omega
    have hlast : len+1-(x.length+y.length) = len+1-x.length-y.length := by omega
    have hxy : (x ++ y).length ≤ len+1 := by
      rw [List.length_append]
      exact h
    rw [Payload.write_data, Payload.ofBytes_data hlen (by omega), Payload.ofBytes_data hlen hxy,
      writeAt_eq hroom]
    simp [List.drop_append, hlast]

theorem setLength_fresh_eq (m : Memory) {n : Int} (h₀ : 0 < n) (h : n < IntType.int.hi) :
    AnsiString.setLength m .empty n = some (m.alloc (.ofBytes n.toNat (toNat_fits h₀ h) [])) := by
  have hd : m.Valid .empty := trivial
  have hnil : (m.content .empty).take n.toNat = [] := List.take_nil
  simp only [setLength_eq hd h₀ h, hnil]

theorem tp2ccConcatToAnsistring_yields {a b : StringArg} (ha : a.Valid m) (hb : b.Valid m)
    (h : ((a.bytes m ++ b.bytes m).length : Int) < IntType.int.hi) :
    Yields m (tp2ccConcatToAnsistring m a b) (a.bytes m ++ b.bytes m) True := by
  rw [List.length_append, Nat.cast_add] at h
  rw [tp2ccConcatToAnsistring, tp2ccStringLength_eq, tp2ccStringLength_eq]
  simp only [Option.bind_eq_bind, Int.toNat_natCast]
  by_cases h₀ : 0 < (((a.bytes m).length : Nat) : Int)+(b.bytes m).length
  · have hlen : ((((a.bytes m).length : Nat) : Int)+(b.bytes m).length).toNat =
        (a.bytes m ++ b.bytes m).length := by
      rw [List.length_append]
      omega
    have hfits : (((a.bytes m ++ b.bytes m).length : Nat) : Int) < IntType.int.hi := by
      rw [List.length_append, Nat.cast_add]
      exact h
    simp only [setLength_fresh_eq m h₀ h, Option.bind_some, hlen]
    have hfirst := doIf_copyFrom_alloc ha (.ofBytes _ hfits []) 0
      (by simp only [Payload.ofBytes, Payload.write, Payload.zeros, List.length_append]; omega)
    have hwrite := write_ofBytes hfits (x := []) (y := a.bytes m)
      (by simp only [List.length_append, List.length_nil]; omega)
    rw [List.length_nil, List.nil_append] at hwrite
    rw [hwrite] at hfirst
    have hsecond := doIf_copyFrom_alloc hb (.ofBytes _ hfits (a.bytes m)) (a.bytes m).length
      (by simp only [Payload.ofBytes, Payload.write, Payload.zeros, List.length_append]; omega)
    rw [write_ofBytes hfits (by simp only [List.length_append]; omega)] at hsecond
    rw [Memory.alloc_snd m _ (.ofBytes _ hfits []), hfirst]
    simp only [Option.bind_some]
    rw [Memory.alloc_snd m _ (.ofBytes _ hfits (a.bytes m)), hsecond]
    have hyields := yields_alloc m (.ofBytes _ hfits (a.bytes m ++ b.bytes m))
    rwa [Payload.ofBytes_content hfits rfl] at hyields
  · have hnil : a.bytes m = [] ∧ b.bytes m = [] :=
      ⟨List.length_eq_zero_iff.mp (by omega), List.length_eq_zero_iff.mp (by omega)⟩
    rw [setLength_of_nonpos (by omega), hnil.1, hnil.2]
    exact yields_empty m

theorem setLength_move_yields (hd : m.Valid d) {off n : Nat}
    (h : off+n ≤ (m.content d).length) :
    Yields m (do
      let (m, r) ← AnsiString.setLength m .empty n
      let m ← m.doIf ((n : Int) > 0) fun m => m.move r 0 d off n
      return (m, r)) (((m.content d).drop off).take n) True := by
  have hfits : (n : Int) < IntType.int.hi := by
    have := m.content_length_lt d
    omega
  have hlen : (((m.content d).drop off).take n).length = n := by
    rw [List.length_take, List.length_drop]
    omega
  by_cases h₀ : 0 < (n : Int)
  · have hmove := Memory.move_alloc hd (.ofBytes n hfits []) 0 h
      (by simp only [Payload.ofBytes, Payload.write, Payload.zeros]; omega)
    have hwrite := write_ofBytes hfits (x := []) (y := ((m.content d).drop off).take n)
      (by rw [hlen, List.length_nil]; omega)
    rw [List.length_nil, List.nil_append] at hwrite
    rw [hwrite] at hmove
    simp only [setLength_fresh_eq m h₀ hfits, Int.toNat_natCast, Option.bind_eq_bind,
      Option.bind_some, Memory.doIf, gt_iff_lt, h₀, if_true, hmove]
    have hyields := yields_alloc m (.ofBytes n hfits (((m.content d).drop off).take n))
    rwa [Payload.ofBytes_content hfits hlen] at hyields
  · have hn : n = 0 := by omega
    subst hn
    exact yields_empty m

theorem pCopyAnsi_yields (hd : m.Valid d) (start count : Int) :
    Yields m (pCopyAnsi m d start count) (copyBytes (m.content d) start count) True := by
  have hroom : min count.toNat ((m.content d).length-(start-1).toNat) = 0 ∨
      (start-1).toNat+min count.toNat ((m.content d).length-(start-1).toNat) ≤
        (m.content d).length := by omega
  have hcopy : copyBytes (m.content d) start count = ((m.content d).drop (start-1).toNat).take
      (min count.toNat ((m.content d).length-(start-1).toNat)) := by
    rw [copyBytes, List.take_eq_take_min, List.length_drop]
  simp only [pCopyAnsi, Memory.length_eq, Int.toNat_natCast, copyRange_eq]
  rw [hcopy]
  cases hroom with
  | inl h =>
    simp only [h, List.take_zero]
    exact yields_empty m
  | inr h => exact setLength_move_yields hd h

theorem Yields.after {m' : Memory} {r : Option (Memory × DataPtr)} {b : List UInt8}
    {clean : Prop} (h : Yields m' r b clean) (hext : m.Extends m')
    (hstores : m'.emptyStores = m.emptyStores) : Yields m r b clean := by
  obtain ⟨m'', d, hr, hext', hvalid, hb, hclean⟩ := h
  rw [hstores] at hclean
  exact ⟨m'', d, hr, hext.trans hext', hvalid, hb, hclean⟩

theorem Yields.of_alloc {p : Payload} {r : Option (Memory × DataPtr)} {b : List UInt8}
    {clean : Prop} (h : Yields (m.alloc p).1 r b clean) : Yields m r b clean :=
  h.after (m.extends_alloc p) (m.alloc_emptyStores p)

theorem Yields.bind {r : Option (Memory × DataPtr)} {b b' : List UInt8} (h : Yields m r b True)
    {f : Memory × DataPtr → Option (Memory × DataPtr)} {clean : Prop}
    (hf : ∀ m' d, m.Extends m' → m'.Valid d → m'.content d = b → Yields m' (f (m', d)) b' clean) :
    Yields m (r >>= f) b' clean := by
  obtain ⟨m', d, hr, hext, hvalid, hb, hclean⟩ := h
  rw [hr]
  exact (hf m' d hext hvalid hb).after hext (hclean.mpr trivial)

theorem ensureUnique_of_length_pos (hd : m.Valid d) (h : 0 < (m.content d).length) :
    ∃ p, AnsiString.ensureUnique m d = some (m.alloc p) ∧ p.content = m.content d := by
  cases ensureUnique_cases hd with
  | inl hcase => exact hcase.2
  | inr hcase =>
    rw [hcase.2.1] at h
    contradiction

theorem deleted_content {p : Payload} {a c : Nat} (h : a+c ≤ p.len) :
    (p.write a (p.data.drop (a+c))).data.take (p.len-c) =
      p.content.take a ++ p.content.drop (a+c) := by
  have hsize := p.size
  have hroom : a+(p.data.drop (a+c)).length ≤ p.data.length := by
    rw [List.length_drop]
    omega
  have ha : (p.data.take a).length = a := by
    rw [List.length_take]
    omega
  have hfront : (p.data.take a).take (p.len-c) = p.data.take a :=
    List.take_of_length_le (by omega)
  have hrest : p.len-c-a = p.len-(a+c) := by omega
  have hback : (p.data.drop (a+c) ++ p.data.drop (a+(p.data.drop (a+c)).length)).take
      (p.len-(a+c)) = (p.data.drop (a+c)).take (p.len-(a+c)) :=
    List.take_append_of_le_length (by rw [List.length_drop]; omega)
  have hhead : p.content.take a = p.data.take a := by
    rw [Payload.content, List.take_take, Nat.min_eq_left (by omega)]
  have htail : p.content.drop (a+c) = (p.data.drop (a+c)).take (p.len-(a+c)) := by
    rw [Payload.content, List.drop_take]
  rw [Payload.write_data, writeAt_eq hroom, List.append_assoc, List.take_append, ha, hrest, hfront,
    hback, hhead, htail]

theorem pDeleteAnsi_yields (hd : m.Valid d) (start count : Int) :
    Yields m (pDeleteAnsi m d start count) (deleteBytes (m.content d) start count) True := by
  rw [pDeleteAnsi, deleteBytes, Memory.length_eq]
  split
  · exact yields_self hd
  · rename_i hin
    obtain ⟨p, hp, hcontent⟩ := ensureUnique_of_length_pos hd (by omega)
    rw [← hcontent, p.content_length] at hin ⊢
    obtain ⟨c, hc⟩ : ∃ c : Nat, (if count > (p.len : Int)-(start-1) then (p.len : Int)-(start-1)
        else count) = c := ⟨_, (Int.toNat_of_nonneg (by split <;> omega)).symm⟩
    have hac : (start-1).toNat+c ≤ p.len := by
      split at hc <;> omega
    have hdrop : p.content.drop (start-1+count).toNat = p.content.drop ((start-1).toNat+c) := by
      have hlen := p.content_length
      split at hc
      · rw [List.drop_of_length_le (by omega), List.drop_of_length_le (by omega)]
      · congr 1
        omega
    have hload : (m.alloc p).1.loadBytes (m.alloc p).2 ((start-1).toNat+c)
        (p.len+1-((start-1).toNat+c)) = some (p.data.drop ((start-1).toNat+c)) := by
      have hsize := p.size
      rw [Memory.loadBytes, Memory.bytesAt_alloc, if_pos (by omega),
        List.take_of_length_le (by rw [List.length_drop]; omega)]
    have hstore := Memory.storeBytes_alloc m p (start-1).toNat
      (p.data.drop ((start-1).toNat+c)) (by rw [List.length_drop, p.size]; omega)
    have hoff : (start-1+(c : Int)).toNat = (start-1).toNat+c := by omega
    have hcount : ((p.len : Int)-(start-1+c)+1).toNat = p.len+1-((start-1).toNat+c) := by omega
    have hcut : setLengthBytes (p.write (start-1).toNat (p.data.drop ((start-1).toNat+c))).content
        ((p.len : Int)-c) = p.content.take (start-1).toNat ++ p.content.drop (start-1+count).toNat := by
      have hnat : ((p.len : Int)-c).toNat = p.len-c := by omega
      have hlen := (p.write (start-1).toNat (p.data.drop ((start-1).toNat+c))).content_length
      have hle : p.len-c-p.len = 0 := by omega
      rw [hdrop, ← deleted_content hac, setLengthBytes, hnat, hlen, Payload.content,
        List.take_take]
      simp [Payload.write, hle]
    rw [hp]
    simp only [Option.bind_eq_bind, Option.bind_some, hc, Memory.move, hoff, hcount, hload, hstore]
    rw [Memory.alloc_snd m p (p.write (start-1).toNat (p.data.drop ((start-1).toNat+c))), ← hcut,
      ← Memory.content_alloc m]
    have hfits : (p.len : Int)-c < IntType.int.hi := by
      have := p.len_lt
      omega
    exact (setLength_yields (m.valid_alloc _) hfits).of_alloc

theorem setLength_grow (hd : m.Valid d) {n : Nat} (h₀ : 0 < n) (hle : (m.content d).length ≤ n)
    (h : (n : Int) < IntType.int.hi) :
    AnsiString.setLength m d n = some (m.alloc (.ofBytes n h (m.content d))) := by
  have htake : (m.content d).take n = m.content d := List.take_of_length_le hle
  simp only [setLength_eq hd (by omega : 0 < (n : Int)) h, Int.toNat_natCast, htake]

/-- The bytes behind the place are moved up, and the inserted ones put in between. -/
theorem inserted_content {p : Payload} {x y rest : List UInt8} {k : Nat} (hk : k ≤ x.length)
    (hdata : p.data = x ++ rest) (hlen : p.len = x.length+y.length) :
    ((p.write (k+y.length) (x.drop k)).write k y).content = x.take k ++ y ++ x.drop k := by
  have hsize := p.size
  have hdrop : (x.drop k).length = x.length-k := List.length_drop
  have htake : (x.take k).length = k := List.length_take_of_le hk
  have hup : (p.write (k+y.length) (x.drop k)).data =
      p.data.take (k+y.length) ++ x.drop k ++ p.data.drop (k+y.length+(x.drop k).length) :=
    writeAt_eq (by omega)
  have hfirst : (p.data.take (k+y.length)).length = k+y.length := by
    rw [List.length_take]
    omega
  have hkeep : (p.data.take (k+y.length)).take k = x.take k := by
    rw [List.take_take, Nat.min_eq_left (by omega), hdata, List.take_append_of_le_length hk]
  have hcopy : ((p.write (k+y.length) (x.drop k)).write k y).data =
      x.take k ++ y ++ (x.drop k ++ p.data.drop (k+y.length+(x.drop k).length)) := by
    rw [Payload.write_data, writeAt_eq (by rw [(p.write _ _).size]; simp only [Payload.write]; omega),
      hup, List.append_assoc (p.data.take (k+y.length)),
      List.take_append_of_le_length (by omega), hkeep, List.drop_left' hfirst]
  have htotal : (x.take k ++ y ++ x.drop k).length = p.len := by
    simp only [List.length_append, htake, hdrop]
    omega
  rw [Payload.content, hcopy, ← List.append_assoc]
  exact List.take_left' htotal

theorem ownedSource_eq {src : StringArg} (hsrc : src.Valid m) (d : DataPtr) :
    ∃ owned, ownedSource m src d (src.bytes m).length = some owned ∧ owned.Valid m ∧
      owned.bytes m = src.bytes m := by
  unfold ownedSource
  split
  · rename_i hsame
    subst hsame
    refine ⟨.outside (m.content d), ?_, m.content_length_lt d, rfl⟩
    rw [StringArg.bytes, Memory.loadBytes_content (by omega), List.drop_zero, List.take_length]
    rfl
  · exact ⟨src, rfl, hsrc, rfl⟩

/-- A place that is moved into the list or right behind it cuts the list as it did. -/
theorem insertBytes_eq (src dest : List UInt8) (pos : Int) :
    insertBytes src dest pos = dest.take (min (pos-1).toNat dest.length) ++ src ++
      dest.drop (min (pos-1).toNat dest.length) := by
  rw [insertBytes]
  by_cases h : (pos-1).toNat ≤ dest.length
  · rw [Nat.min_eq_left h]
  · rw [Nat.min_eq_right (by omega), List.take_of_length_le (by omega),
      List.drop_of_length_le (by omega), List.take_length, List.drop_length]

theorem tp2ccInsertBytes_yields (hd : m.Valid d) (src : StringArg) (hsrc : src.Valid m)
    (pos : Int)
    (h : (((m.content d).length+(src.bytes m).length : Nat) : Int) < IntType.int.hi) :
    Yields m (tp2ccInsertBytes m src d pos) (insertBytes (src.bytes m) (m.content d) pos) True := by
  rw [tp2ccInsertBytes, tp2ccStringLength_eq, Memory.length_eq]
  split
  · have hnil : src.bytes m = [] := List.length_eq_zero_iff.mp (by omega)
    rw [insertBytes, hnil, List.append_nil, List.take_append_drop]
    exact yields_self hd
  · rename_i hpos
    obtain ⟨owned, howned, hvalid, hbytes⟩ := ownedSource_eq hsrc d
    obtain ⟨k, hplace, hk⟩ : ∃ k : Nat, (if (if pos < 1 then 1 else pos) >
        ((m.content d).length : Int)+1 then ((m.content d).length : Int)+1
        else if pos < 1 then 1 else pos) = k+1 ∧ k = min (pos-1).toNat (m.content d).length := by
      refine ⟨_, ?_, rfl⟩
      split <;> split at * <;> omega
    have hgrow := setLength_grow hd (n := (m.content d).length+(src.bytes m).length) (by omega)
      (by omega) h
    rw [Nat.cast_add] at hgrow
    generalize hp : Payload.ofBytes ((m.content d).length+(src.bytes m).length) h (m.content d) = p
      at hgrow
    have hlen : p.len = (m.content d).length+(src.bytes m).length := by
      rw [← hp]
      rfl
    have hdata : p.data = m.content d ++ List.replicate
        ((m.content d).length+(src.bytes m).length+1-(m.content d).length) 0 := by
      rw [← hp]
      exact Payload.ofBytes_data h (by omega)
    have hdrop : ((m.content d).drop k).length = (m.content d).length-k := List.length_drop
    have hload : (m.alloc p).1.loadBytes (m.alloc p).2 k ((m.content d).length-k) =
        some ((m.content d).drop k) := by
      rw [Memory.loadBytes, Memory.bytesAt_alloc, if_pos (by rw [p.size]; omega), hdata,
        List.drop_append_of_le_length (by omega), List.take_left' hdrop]
    have hstore := Memory.storeBytes_alloc m p (k+(src.bytes m).length)
      ((m.content d).drop k) (by omega)
    have hcopy := copyFrom_alloc hvalid
      (p.write (k+(src.bytes m).length) ((m.content d).drop k)) k
      (by rw [hbytes]; simp only [Payload.write]; omega)
    rw [hbytes] at hcopy
    have hup : ((k : Int)+1-1+(src.bytes m).length).toNat = k+(src.bytes m).length := by omega
    have hoff : ((k : Int)+1-1).toNat = k := by omega
    have hcount : (((m.content d).length : Int)-(k+1-1)).toNat = (m.content d).length-k := by omega
    simp only [howned, Option.bind_eq_bind, Option.bind_some, hplace, hgrow, Memory.move, hup, hoff,
      hcount, hload, hstore, Int.toNat_natCast]
    rw [Memory.alloc_snd m p (p.write (k+(src.bytes m).length) ((m.content d).drop k)), hcopy]
    rw [insertBytes_eq, ← hk, ← inserted_content (by omega) hdata hlen]
    exact yields_alloc m _

namespace CharSource

def Readable (m : Memory) (n : Nat) : CharSource → Prop
  | .outside bytes => n ≤ bytes.length
  | .within d off => m.Valid d ∧ (n = 0 ∨ off+n ≤ (m.content d).length)

def bytes (m : Memory) (n : Nat) : CharSource → List UInt8
  | .outside bytes => bytes.take n
  | .within d off => ((m.content d).drop off).take n

end CharSource

theorem CharSource.load_eq {m' : Memory} (h : m.Extends m') {n : Nat} (hn : 0 < n)
    {src : CharSource} (hsrc : src.Readable m n) :
    src.load m' n = some (src.bytes m n) ∧ (src.bytes m n).length = n := by
  cases src with
  | outside bytes => exact ⟨if_pos hsrc, List.length_take_of_le hsrc⟩
  | within d off =>
    obtain ⟨hd, hlen⟩ := hsrc
    have hcontent := h.content hd
    rw [CharSource.load, CharSource.bytes, Memory.loadBytes_content (by rw [hcontent]; omega),
      hcontent]
    refine ⟨rfl, ?_⟩
    rw [List.length_take, List.length_drop]
    omega

theorem Payload.write_content_of_length {p : Payload} {b : List UInt8} (h : b.length = p.len) :
    (p.write 0 b).content = b := by
  have hsize := p.size
  rw [content, write_data, writeAt_eq (by omega), List.take_zero, List.nil_append]
  exact List.take_left' h

theorem tp2ccSetAnsistring_yields (hd : m.Valid d) {src : CharSource} {len : Int}
    (hsrc : src.Readable m len.toNat) (h : len < IntType.int.hi) :
    Yields m (tp2ccSetAnsistringFromCountedChars m d (some src) len)
      (src.bytes m len.toNat) True := by
  rw [tp2ccSetAnsistringFromCountedChars]
  by_cases h₀ : 0 < len
  · have hset := setLength_eq hd h₀ h
    generalize hp : Payload.ofBytes len.toNat _ _ = p at hset
    have hlen : p.len = len.toNat := by
      rw [← hp]
      rfl
    have hunique : AnsiString.ensureUnique (m.alloc p).1 (m.alloc p).2 =
        some ((m.alloc p).1.alloc p) :=
      ensureUnique_of_pos (Arena.get?_push_next _ p) (by omega)
    have hext := (m.extends_alloc p).trans ((m.alloc p).1.extends_alloc p)
    obtain ⟨hload, hbytes⟩ := CharSource.load_eq hext (by omega) hsrc
    have hstore := (m.alloc p).1.storeBytes_alloc p 0
      (src.bytes m len.toNat) (by omega)
    have hyields := yields_alloc (m.alloc p).1 (p.write 0 (src.bytes m len.toNat))
    rw [Payload.write_content_of_length (by omega)] at hyields
    simp only [hset, gt_iff_lt, h₀, if_true, Option.bind_eq_bind, Option.bind_some, hunique,
      hload, hstore]
    exact hyields.of_alloc
  · have hcount : (if len > 0 then len else 0) = 0 := if_neg h₀
    have hnil : src.bytes m len.toNat = [] := by
      rw [show len.toNat = 0 by omega]
      cases src <;> rfl
    rw [hnil, hcount]
    exact yields_empty m

theorem tp2ccSetAnsistring_null (m : Memory) (d : DataPtr) (len : Int) :
    Yields m (tp2ccSetAnsistringFromCountedChars m d none len) [] True := yields_empty m

theorem Memory.load_content {i : Nat} {c : UInt8} (h : (m.content d)[i]? = some c) :
    m.load d i = some c := by
  have hlt : i < (m.content d).length := (List.getElem?_eq_some_iff.mp h).1
  rw [content_eq_take, List.getElem?_take, if_pos hlt] at h
  rw [load, if_pos (by omega)]
  exact h

theorem not_ownedEmpty_of_pos (h : 0 < (m.content d).length) : ¬OwnedEmpty m d := by
  intro hown
  have hlen := hown.2
  rw [Memory.length_eq] at hlen
  omega

theorem mapCharsFrom_yields (f : UInt8 → UInt8) (hd : m.Valid d) {i n : Nat}
    (h : i+n = (m.content d).length) : Yields m (mapCharsFrom f m d i n)
      ((m.content d).take i ++ ((m.content d).drop i).map f) True := by
  induction n generalizing m d i with
  | zero =>
    have hself : (m.content d).take i ++ ((m.content d).drop i).map f = m.content d := by
      rw [List.take_of_length_le (by omega), List.drop_of_length_le (by omega), List.map_nil,
        List.append_nil]
    rw [mapCharsFrom, Memory.length_eq, if_neg (by omega), hself]
    exact yields_self hd
  | succ n ih =>
    obtain ⟨c, hc⟩ : ∃ c, (m.content d)[i]? = some c :=
      ⟨_, List.getElem?_eq_getElem (by omega)⟩
    obtain ⟨m', d', hassign, hext, hvalid, hcontent, hclean⟩ :=
      charRefAssign_yields hd (i := i) (by omega) (by omega) (f c)
    rw [Int.toNat_natCast] at hcontent
    have hstores : m'.emptyStores = m.emptyStores :=
      hclean.mpr (not_ownedEmpty_of_pos (by omega))
    have hrest := ih hvalid (i := i+1) (by rw [hcontent, List.length_set]; omega)
    have hdrop : (m.content d).drop i = c :: (m.content d).drop (i+1) := by
      obtain ⟨hlt, hget⟩ := List.getElem?_eq_some_iff.mp hc
      rw [List.drop_eq_getElem_cons hlt, hget]
    have hbytes : (m'.content d').take (i+1) ++ ((m'.content d').drop (i+1)).map f =
        (m.content d).take i ++ ((m.content d).drop i).map f := by
      rw [hcontent, hdrop, List.drop_set_of_lt (by omega), List.take_add_one,
        List.take_set_of_le (le_refl i), List.getElem?_set_self (by omega)]
      simp
    rw [mapCharsFrom, Memory.length_eq, if_pos (by omega), Memory.load_content hc]
    simp only [Option.bind_eq_bind, Option.bind_some, hassign]
    rw [← hbytes]
    exact hrest.after hext hstores

theorem mapChars_yields (f : UInt8 → UInt8) (hd : m.Valid d) :
    Yields m (mapChars f m d) ((m.content d).map f) True := by
  have hyields := mapCharsFrom_yields f hd (i := 0) (Nat.zero_add _)
  rw [List.take_zero, List.drop_zero, List.nil_append] at hyields
  rwa [mapChars, Memory.length_eq, Int.toNat_natCast]

end

end Tp2cc.Rt
