import Mathlib.Data.List.Basic
import Mathlib.Data.List.Flatten

/-!
# Python text

Strings as lists of characters, files as lists of bytes, and the few string
methods a script applies to what it reads: `str.strip`, `str.startswith`, a
text-mode `f.read()` (strict UTF-8, then universal newlines).
-/

namespace Tbouncer.Base

abbrev Text := List Char
abbrev Bytes := List UInt8

/-- `str.isspace` of one character: the Unicode white space and the four
separators U+001C to U+001F. -/
def isSpace (c : Char) : Bool :=
  let n := c.toNat
  (9 ≤ n && n ≤ 13) || (28 ≤ n && n ≤ 32) || n == 0x85 || n == 0xA0 || n == 0x1680 ||
    (0x2000 ≤ n && n ≤ 0x200A) || n == 0x2028 || n == 0x2029 || n == 0x202F ||
    n == 0x205F || n == 0x3000

/-- `str.strip()`. -/
def strip (s : Text) : Text :=
  ((s.dropWhile isSpace).reverse.dropWhile isSpace).reverse

/-- `str.startswith`. -/
def startsWith (s p : Text) : Bool := p.isPrefixOf s

/-- What text mode makes of line ends: `\r\n` and a lone `\r` become `\n`. -/
def universalNewlines : Text → Text
  | [] => []
  | '\r' :: '\n' :: s => '\n' :: universalNewlines s
  | '\r' :: s => '\n' :: universalNewlines s
  | c :: s => c :: universalNewlines s

def encodeUtf8 (s : Text) : Bytes := s.flatMap String.utf8EncodeChar

def decodeUtf8 (b : Bytes) : Option Text := b.toByteArray.utf8Decode?.map Array.toList

/-- `f.read()` of a file opened in text mode; `none` is the `UnicodeDecodeError`. -/
def readText (b : Bytes) : Option Text := (decodeUtf8 b).map universalNewlines

theorem decodeUtf8_encodeUtf8 (s : Text) : decodeUtf8 (encodeUtf8 s) = some s := by
  have henc : (encodeUtf8 s).toByteArray = s.utf8Encode := rfl
  rw [decodeUtf8, henc, List.utf8Decode?_utf8Encode]
  rfl

theorem readText_encodeUtf8 (s : Text) :
    readText (encodeUtf8 s) = some (universalNewlines s) := by
  rw [readText, decodeUtf8_encodeUtf8]
  rfl

theorem decodeUtf8_eq_some_iff {b : Bytes} {s : Text} :
    decodeUtf8 b = some s ↔ b = encodeUtf8 s := by
  constructor
  · intro h
    obtain ⟨a, ha, rfl⟩ := Option.map_eq_some_iff.mp h
    have hsome : b.toByteArray.utf8Decode?.isSome := by rw [ha]; rfl
    obtain ⟨l, hl⟩ := ByteArray.isSome_utf8Decode?_iff.mp hsome
    rw [hl, List.utf8Decode?_utf8Encode] at ha
    cases ha
    exact List.toByteArray_inj.mp hl
  · rintro rfl
    exact decodeUtf8_encodeUtf8 s

theorem encodeUtf8_append (s t : Text) : encodeUtf8 (s ++ t) = encodeUtf8 s ++ encodeUtf8 t :=
  List.flatMap_append

theorem encodeUtf8_length_le_of_sublist {s t : Text} (h : s.Sublist t) :
    (encodeUtf8 s).length ≤ (encodeUtf8 t).length :=
  (h.flatMap String.utf8EncodeChar).length_le

theorem strip_sublist (s : Text) : (strip s).Sublist s := by
  have hr : ((s.dropWhile isSpace).reverse.dropWhile isSpace).reverse.Sublist
      (s.dropWhile isSpace).reverse.reverse := (List.dropWhile_sublist _).reverse
  rw [List.reverse_reverse] at hr
  exact hr.trans (List.dropWhile_sublist _)

theorem encodeUtf8_universalNewlines_length_le (s : Text) :
    (encodeUtf8 (universalNewlines s)).length ≤ (encodeUtf8 s).length := by
  have hcons : ∀ c t, (encodeUtf8 (c :: t)).length =
      (String.utf8EncodeChar c).length + (encodeUtf8 t).length := by
    intro c t
    simp [encodeUtf8]
  have hcr : (String.utf8EncodeChar '\r').length = 1 := by decide
  have hlf : (String.utf8EncodeChar '\n').length = 1 := by decide
  fun_induction universalNewlines s with
  | case1 => exact Nat.le_refl _
  | case2 s ih =>
    rw [hcons, hcons, hcons]
    omega
  | case3 s _ ih =>
    rw [hcons, hcons]
    omega
  | case4 c s _ _ ih =>
    rw [hcons, hcons]
    omega

/- What a file reads as is no longer than the file. -/
theorem readText_strip_length_le {b : Bytes} {s : Text} (h : readText b = some s) :
    (encodeUtf8 (strip s)).length ≤ b.length := by
  obtain ⟨t, ht, rfl⟩ := Option.map_eq_some_iff.mp h
  rw [decodeUtf8_eq_some_iff] at ht
  rw [ht]
  exact Nat.le_trans (encodeUtf8_length_le_of_sublist (strip_sublist _))
    (encodeUtf8_universalNewlines_length_le t)

/-! ### Words: text without white space -/

theorem no_space_of_all {s : Text} (h : (s.all fun c => !isSpace c) = true) :
    ∀ c ∈ s, isSpace c = false := by
  intro c hc
  simpa using List.all_eq_true.mp h c hc

theorem dropWhile_of_no_space (s : Text) (h : ∀ c ∈ s, isSpace c = false) :
    s.dropWhile isSpace = s := by
  cases s with
  | nil => rfl
  | cons c s =>
    have hc : isSpace c = false := h c (List.mem_cons_self ..)
    simp [hc]

theorem strip_of_no_space (s : Text) (h : ∀ c ∈ s, isSpace c = false) : strip s = s := by
  have hr : ∀ c ∈ s.reverse, isSpace c = false := fun c hc => h c (List.mem_reverse.mp hc)
  rw [strip, dropWhile_of_no_space s h, dropWhile_of_no_space s.reverse hr, List.reverse_reverse]

theorem universalNewlines_of_no_space (s : Text) (h : ∀ c ∈ s, isSpace c = false) :
    universalNewlines s = s := by
  induction s with
  | nil => rfl
  | cons c s ih =>
    have hc : c ≠ '\r' := by
      intro he
      have := h c (List.mem_cons_self ..)
      rw [he] at this
      exact absurd this (by decide)
    have hs := ih fun x hx => h x (List.mem_cons_of_mem c hx)
    rw [universalNewlines, hs]
    · exact fun _ he _ => hc he
    · exact hc

/-! ### Text of one-byte characters -/

/- A byte that is a character by itself, and not white space. -/
def OneByte (b : UInt8) : Prop := ∃ c, isSpace c = false ∧ String.utf8EncodeChar c = [b]

theorem oneByte_of_all {s : Text}
    (h : (s.all fun c => !isSpace c && (String.utf8EncodeChar c).length == 1) = true) :
    ∀ b ∈ encodeUtf8 s, OneByte b := by
  intro b hb
  obtain ⟨c, hc, hin⟩ := List.mem_flatMap.mp hb
  have hone := List.all_eq_true.mp h c hc
  simp only [Bool.and_eq_true, Bool.not_eq_true', beq_iff_eq] at hone
  obtain ⟨x, hx⟩ := List.length_eq_one_iff.mp hone.2
  rw [hx, List.mem_singleton] at hin
  exact ⟨c, hone.1, by rw [hx, hin]⟩

theorem word_of_oneByte {content : Bytes} (h : ∀ b ∈ content, OneByte b) :
    ∃ word : Text, content = encodeUtf8 word ∧ ∀ c ∈ word, isSpace c = false := by
  induction content with
  | nil => exact ⟨[], rfl, nofun⟩
  | cons b content ih =>
    obtain ⟨c, hc, henc⟩ := h b (List.mem_cons_self ..)
    obtain ⟨word, hw, hspace⟩ := ih fun x hx => h x (List.mem_cons_of_mem b hx)
    refine ⟨c :: word, ?_, List.forall_mem_cons.mpr ⟨hc, hspace⟩⟩
    rw [encodeUtf8, List.flatMap_cons, henc, ← encodeUtf8, ← hw]
    rfl

/- Any bytes of the kind are a word, and read as that word. -/
theorem readText_of_oneByte {content : Bytes} (h : ∀ b ∈ content, OneByte b) :
    ∃ word, content = encodeUtf8 word ∧ readText content = some word ∧ strip word = word := by
  obtain ⟨word, hw, hspace⟩ := word_of_oneByte h
  refine ⟨word, hw, ?_, strip_of_no_space word hspace⟩
  rw [hw, readText_encodeUtf8, universalNewlines_of_no_space word hspace]

theorem encodeUtf8_inj {s t : Text} : encodeUtf8 s = encodeUtf8 t ↔ s = t := by
  refine ⟨fun h => ?_, fun h => by rw [h]⟩
  have hd := decodeUtf8_encodeUtf8 s
  rw [h, decodeUtf8_encodeUtf8] at hd
  exact (Option.some.inj hd).symm

/-! ### NUL bytes -/

/- A byte with one of the top bits set, as all of a longer encoding have. -/
theorem zero_ne_or (x : UInt8) {y : UInt8} (hy : y ≠ 0) : 0 ≠ x ||| y := by
  intro h
  exact hy (UInt8.or_eq_zero_iff.mp h.symm).2

theorem zero_mem_utf8EncodeChar (c : Char) : 0 ∈ String.utf8EncodeChar c ↔ c = Char.ofNat 0 := by
  have htop : ∀ x : UInt8, 0 ≠ x ||| 0x80 := fun x => zero_ne_or x (by decide)
  constructor
  · intro h
    have hpos := c.utf8Size_pos
    have hle := c.utf8Size_le_four
    have hsize : c.utf8Size = 1 ∨ c.utf8Size = 2 ∨ c.utf8Size = 3 ∨ c.utf8Size = 4 := by omega
    rcases hsize with h1 | h2 | h3 | h4
    · -- the character is its own byte
      have hsmall : c.val.toNat ≤ 127 := Char.utf8Size_eq_one_iff.mp h1
      rw [String.utf8EncodeChar_eq_singleton h1, List.mem_singleton] at h
      have hbyte := congrArg UInt8.toNat h
      have hzero : (0 : UInt8).toNat = 0 := rfl
      rw [UInt32.toNat_toUInt8] at hbyte
      apply Char.ext
      apply UInt32.toNat_inj.mp
      show c.val.toNat = 0
      omega
    · simp only [String.utf8EncodeChar_eq_cons_cons h2, List.mem_cons, List.not_mem_nil, htop,
        zero_ne_or _ (show (0xc0 : UInt8) ≠ 0 by decide), or_self] at h
    · simp only [String.utf8EncodeChar_eq_cons_cons_cons h3, List.mem_cons, List.not_mem_nil,
        htop, zero_ne_or _ (show (0xe0 : UInt8) ≠ 0 by decide), or_self] at h
    · simp only [String.utf8EncodeChar_eq_cons_cons_cons_cons h4, List.mem_cons,
        List.not_mem_nil, htop, zero_ne_or _ (show (0xf0 : UInt8) ≠ 0 by decide), or_self] at h
  · rintro rfl
    decide

/- Only NUL is encoded with a zero byte. -/
theorem zero_mem_encodeUtf8 (s : Text) : 0 ∈ encodeUtf8 s ↔ Char.ofNat 0 ∈ s := by
  rw [encodeUtf8, List.mem_flatMap]
  constructor
  · rintro ⟨c, hc, hzero⟩
    rwa [(zero_mem_utf8EncodeChar c).mp hzero] at hc
  · intro h
    exact ⟨_, h, (zero_mem_utf8EncodeChar _).mpr rfl⟩

/-! ### When stripping leaves one character -/

theorem strip_padded (a b : Text) (c : Char) (ha : ∀ x ∈ a, isSpace x = true)
    (hb : ∀ x ∈ b, isSpace x = true) (hc : isSpace c = false) :
    strip (a ++ c :: b) = [c] := by
  have hbr : ∀ x ∈ b.reverse, isSpace x = true := fun x hx => hb x (List.mem_reverse.mp hx)
  rw [strip, List.dropWhile_append_of_pos ha]
  simp only [List.dropWhile_cons, hc, Bool.false_eq_true, if_false, List.reverse_cons]
  rw [List.dropWhile_append_of_pos hbr]
  simp [hc]

theorem filter_dropWhile_space (s : Text) :
    (s.dropWhile isSpace).filter (fun c => !isSpace c) = s.filter (fun c => !isSpace c) := by
  induction s with
  | nil => rfl
  | cons c s ih =>
    cases hc : isSpace c with
    | true => simpa [hc] using ih
    | false => simp [hc]

theorem filter_strip (s : Text) :
    (strip s).filter (fun c => !isSpace c) = s.filter (fun c => !isSpace c) := by
  rw [strip, List.filter_reverse, filter_dropWhile_space, List.filter_reverse,
    List.reverse_reverse, filter_dropWhile_space]

theorem strip_eq_singleton_iff (s : Text) (c : Char) (hc : isSpace c = false) :
    strip s = [c] ↔ s.filter (fun x => !isSpace x) = [c] := by
  constructor
  · intro h
    rw [← filter_strip, h]
    simp [hc]
  · intro h
    obtain ⟨a, b, rfl, ha, -, hb⟩ := List.filter_eq_cons_iff.mp h
    refine strip_padded a b c (fun x hx => ?_) (fun x hx => ?_) hc
    · simpa using ha x hx
    · simpa using List.filter_eq_nil_iff.mp hb x hx

theorem filter_universalNewlines (s : Text) :
    (universalNewlines s).filter (fun c => !isSpace c) = s.filter (fun c => !isSpace c) := by
  have hcr : isSpace '\r' = true := by decide
  have hlf : isSpace '\n' = true := by decide
  fun_induction universalNewlines s with
  | case1 => rfl
  | case2 s ih => simpa [hcr, hlf] using ih
  | case3 s _ ih => simpa [hcr, hlf] using ih
  | case4 c s _ _ ih => simp [List.filter_cons, ih]

theorem strip_universalNewlines_eq_singleton_iff (s : Text) (c : Char) (hc : isSpace c = false) :
    strip (universalNewlines s) = [c] ↔ strip s = [c] := by
  rw [strip_eq_singleton_iff _ c hc, filter_universalNewlines, ← strip_eq_singleton_iff _ c hc]

/-! ### Paths -/

/-- `os.path.basename`: what follows the last slash. -/
def basename (path : Text) : Text := (path.reverse.takeWhile (· ≠ '/')).reverse

/-- `os.path.splitext(name)[0]` of a name without a slash: up to its last dot, unless
only dots stand before that one. -/
def splitextRoot (name : Text) : Text :=
  match name.reverse.dropWhile (· ≠ '.') with
  | [] => name
  | _ :: stem => if stem.any (· ≠ '.') then stem.reverse else name

example : splitextRoot (basename "./mmap/mmap18.c".toList) = "mmap18".toList := by decide

end Tbouncer.Base
