import Mathlib.Data.List.TakeWhile
import Mathlib.Tactic.IntervalCases
import Pearl.Location

namespace Pearl

namespace Text.Utf8

/-! ### Characters and bytes -/

theorem lead?_two (n : Nat) (hlow : 2 ≤ n) (hhigh : n < 32) :
    lead? (UInt8.ofNat (n + 0xC0)) = some ⟨1, 0x80, 0xBF, n⟩ := by
  interval_cases n <;> rfl

/-- The bounds of the byte after `0xE0 + n`: no overlong forms after `0xE0`, no surrogates after
`0xED`. -/
theorem lead?_three (n : Nat) (h : n < 16) :
    lead? (UInt8.ofNat (n + 0xE0)) =
      some ⟨2, if n = 0 then 0xA0 else 0x80, if n = 13 then 0x9F else 0xBF, n⟩ := by
  interval_cases n <;> rfl

/-- The bounds of the byte after `0xF0 + n`: no overlong forms after `0xF0`, nothing beyond the
last code point after `0xF4`. -/
theorem lead?_four (n : Nat) (h : n < 5) :
    lead? (UInt8.ofNat (n + 0xF0)) =
      some ⟨3, if n = 0 then 0x90 else 0x80, if n = 4 then 0x8F else 0xBF, n⟩ := by
  interval_cases n <;> rfl

theorem toNat_continuation (n : Nat) : (UInt8.ofNat (n % 64 + 0x80)).toNat = n % 64 + 0x80 := by
  have h : n % 64 < 64 := Nat.mod_lt n (by decide)
  rw [UInt8.toNat_ofNat']
  exact Nat.mod_eq_of_lt (by omega)

/-- A byte within its bounds adds six bits. -/
theorem complete_succ (bits taken k n : Nat) (low high : UInt8) (bs : List UInt8)
    (hlow : low.toNat ≤ n % 64 + 0x80) (hhigh : n % 64 + 0x80 ≤ high.toNat) :
    complete bits taken (k + 1) low high (UInt8.ofNat (n % 64 + 0x80) :: bs) =
      complete (bits * 64 + n % 64) (taken + 1) k 0x80 0xBF bs := by
  have hb := toNat_continuation n
  have hl : low ≤ UInt8.ofNat (n % 64 + 0x80) := by rw [UInt8.le_iff_toNat_le, hb]; exact hlow
  have hh : UInt8.ofNat (n % 64 + 0x80) ≤ high := by rw [UInt8.le_iff_toNat_le, hb]; exact hhigh
  rw [complete]
  simp only [hl, hh, decide_true, Bool.and_self, if_true]
  rw [hb, Nat.add_sub_cancel]

theorem not_lt_ascii {n m : Nat} (hm : 0x80 ≤ m) (hn : n + m < 256) :
    ¬ UInt8.ofNat (n + m) < 0x80 := by
  rw [UInt8.lt_iff_toNat_lt, UInt8.toNat_ofNat', Nat.mod_eq_of_lt hn]
  exact Nat.not_lt.mpr (by change 128 ≤ n + m; omega)

/-- The bytes of a character are read as this character, whatever follows them. -/
theorem head_utf8EncodeChar (c : Char) (bs : List UInt8) :
    ∃ b extra, String.utf8EncodeChar c = b :: extra ∧
      head b (extra ++ bs) = ⟨.ok c, extra.length⟩ := by
  have hval := c.valid
  have hchar : Char.ofNat c.val.toNat = c := Char.ofNat_toNat c
  simp only [UInt32.isValidChar, Nat.isValidChar] at hval
  generalize hv : c.val.toNat = v at hval hchar
  have hsix : ∀ n : Nat, n % 64 < 64 := fun n => Nat.mod_lt n (by decide)
  unfold String.utf8EncodeChar
  simp only [hv]
  split_ifs with h1 h2 h3
  · refine ⟨_, [], rfl, ?_⟩
    have hb : (UInt8.ofNat v).toNat = v := by
      rw [UInt8.toNat_ofNat']
      exact Nat.mod_eq_of_lt (by omega)
    have hlt : UInt8.ofNat v < 0x80 := by
      rw [UInt8.lt_iff_toNat_lt, hb]
      change v < 128
      omega
    rw [head, if_pos hlt, hb, hchar]
    rfl
  · refine ⟨_, _, rfl, ?_⟩
    have hq : v / 64 % 32 = v / 64 := Nat.mod_eq_of_lt (by omega)
    have hw : v / 64 * 64 + v % 64 = v := by omega
    rw [hq, head, if_neg (not_lt_ascii (by decide) (by omega)), lead?_two _ (by omega) (by omega)]
    simp only [List.cons_append, List.nil_append]
    rw [complete_succ _ _ _ _ _ _ _ (by change 128 ≤ _; omega)
      (by change _ ≤ 191; have := hsix v; omega), hw, complete, hchar]
    rfl
  · refine ⟨_, _, rfl, ?_⟩
    have hq : v / 4096 % 16 = v / 4096 := Nat.mod_eq_of_lt (by omega)
    have hw : (v / 4096 * 64 + v / 64 % 64) * 64 + v % 64 = v := by omega
    rw [hq, head, if_neg (not_lt_ascii (by decide) (by omega)), lead?_three _ (by omega)]
    simp only [List.cons_append, List.nil_append]
    have hlow : (if v / 4096 = 0 then (0xA0 : UInt8) else 0x80).toNat ≤ v / 64 % 64 + 0x80 := by
      split
      · change 160 ≤ _; omega
      · change 128 ≤ _; omega
    have hhigh : v / 64 % 64 + 0x80 ≤ (if v / 4096 = 13 then (0x9F : UInt8) else 0xBF).toNat := by
      split
      · change _ ≤ 159; omega
      · change _ ≤ 191; have := hsix (v / 64); omega
    rw [complete_succ _ _ _ _ _ _ _ hlow hhigh,
      complete_succ _ _ _ _ _ _ _ (by change 128 ≤ _; omega)
        (by change _ ≤ 191; have := hsix v; omega), hw, complete, hchar]
    rfl
  · refine ⟨_, _, rfl, ?_⟩
    have hq : v / 262144 % 8 = v / 262144 := Nat.mod_eq_of_lt (by omega)
    have hw : ((v / 262144 * 64 + v / 4096 % 64) * 64 + v / 64 % 64) * 64 + v % 64 = v := by omega
    rw [hq, head, if_neg (not_lt_ascii (by decide) (by omega)), lead?_four _ (by omega)]
    simp only [List.cons_append, List.nil_append]
    have hlow : (if v / 262144 = 0 then (0x90 : UInt8) else 0x80).toNat ≤
        v / 4096 % 64 + 0x80 := by
      split
      · change 144 ≤ _; omega
      · change 128 ≤ _; omega
    have hhigh : v / 4096 % 64 + 0x80 ≤
        (if v / 262144 = 4 then (0x8F : UInt8) else 0xBF).toNat := by
      split
      · change _ ≤ 143; omega
      · change _ ≤ 191; have := hsix (v / 4096); omega
    rw [complete_succ _ _ _ _ _ _ _ hlow hhigh,
      complete_succ _ _ _ _ _ _ _ (by change 128 ≤ _; omega)
        (by change _ ≤ 191; have := hsix (v / 64); omega),
      complete_succ _ _ _ _ _ _ _ (by change 128 ≤ _; omega)
        (by change _ ≤ 191; have := hsix v; omega), hw, complete, hchar]
    rfl

/-- A text is read back from its bytes. -/
theorem decodeReplacing_encode (cs : List Char) : decodeReplacing (encode cs) = cs := by
  induction cs with
  | nil => rw [encode, List.flatMap_nil, decodeReplacing]
  | cons c cs ih =>
    obtain ⟨b, extra, he, hh⟩ := head_utf8EncodeChar c (encode cs)
    have hs : encode (c :: cs) = b :: (extra ++ encode cs) := by
      rw [encode, List.flatMap_cons, he]
      rfl
    rw [hs, decodeReplacing, hh]
    simp only [List.drop_left]
    rw [ih]

end Text.Utf8

/-! ### Components -/

theorem Text.splitOn_of_not_mem {sep : Char} {cs : List Char} (h : sep ∉ cs) :
    splitOn sep cs = [cs] := by
  induction cs with
  | nil => rfl
  | cons c cs ih =>
    simp only [List.mem_cons, not_or] at h
    rw [splitOn, if_neg (Ne.symm h.1), ih h.2]

theorem Text.splitOn_append_cons {sep : Char} {cs : List Char} (h : sep ∉ cs) (rest : List Char) :
    splitOn sep (cs ++ sep :: rest) = cs :: splitOn sep rest := by
  induction cs with
  | nil => rw [List.nil_append, splitOn, if_pos rfl]
  | cons c cs ih =>
    simp only [List.mem_cons, not_or] at h
    rw [List.cons_append, splitOn, if_neg (Ne.symm h.1), ih h.2]

namespace Path

theorem toList_intercalate_cons (part next : String) (parts : List String) :
    ("/".intercalate (part :: next :: parts)).toList =
      part.toList ++ '/' :: ("/".intercalate (next :: parts)).toList := by
  rw [String.intercalate_cons_cons]
  simp

/-- Components that are written in a row are read back. -/
theorem partsOf_intercalate (parts : List String) (h : ∀ part ∈ parts, IsComponent part) :
    partsOf ("/".intercalate parts).toList = parts := by
  induction parts with
  | nil => simp [partsOf, Text.splitOn]
  | cons part parts ih =>
    obtain ⟨hne, hdot, hslash⟩ := h part List.mem_cons_self
    have hne' : part.toList ≠ [] := by simpa using hne
    have hdot' : part.toList ≠ ['.'] := by
      intro he
      exact hdot (String.toList_injective he)
    cases parts with
    | nil =>
      rw [String.intercalate_singleton, partsOf, Text.splitOn_of_not_mem hslash]
      simp [hne, hdot']
    | cons next parts =>
      rw [toList_intercalate_cons, partsOf, Text.splitOn_append_cons hslash]
      have hrest := ih fun p hp => h p (List.mem_cons_of_mem part hp)
      rw [partsOf] at hrest
      simp only [List.filter_cons, hne', hdot', ne_eq, not_false_eq_true, and_self, decide_true,
        if_true, List.map_cons, String.ofList_toList, hrest]

theorem head?_intercalate_ne_slash (parts : List String) (h : ∀ part ∈ parts, IsComponent part) :
    ("/".intercalate parts).toList.head? ≠ some '/' := by
  cases parts with
  | nil => simp
  | cons part parts =>
    obtain ⟨hne, -, hslash⟩ := h part List.mem_cons_self
    obtain ⟨c, cs, hc⟩ := List.exists_cons_of_ne_nil (l := part.toList) (by simpa using hne)
    have hcs : c ≠ '/' := by
      rintro rfl
      exact hslash (by simp [hc])
    cases parts with
    | nil => simpa [hc] using hcs
    | cons next parts =>
      rw [toList_intercalate_cons, hc]
      simpa using hcs

theorem toList_toString_of_root (p : Path) (hp : p.anchor = .root) :
    p.toString.toList = '/' :: ("/".intercalate p.parts).toList := by
  simp [toString, hp, Anchor.text]

/-- An absolute path is read back from how it is written. -/
theorem ofString_toString (p : Path) (hp : p.anchor = .root) : ofString p.toString = p := by
  have hs := toList_toString_of_root p hp
  have ha : anchorOf p.toString.toList = .root := by
    have hh := head?_intercalate_ne_slash p.parts p.isComponent
    rw [hs, anchorOf]
    cases hr : ("/".intercalate p.parts).toList with
    | nil => rfl
    | cons c cs =>
      have hc : c ≠ '/' := by simpa [hr] using hh
      simp [hc]
  have hparts : partsOf p.toString.toList = p.parts := by
    have hi := partsOf_intercalate p.parts p.isComponent
    rw [hs, partsOf, Text.splitOn, if_pos rfl]
    rw [partsOf] at hi
    simpa using hi
  obtain ⟨anchor, parts, hc⟩ := p
  simp only [ofString, Path.mk.injEq]
  exact ⟨ha.trans hp.symm, hparts⟩

end Path

namespace Uri

/-! ### Percent escapes -/

/-- A character that may stand in an escaped path: visible ASCII that ends no part of a URI. -/
def isPathChar (c : Char) : Bool := 0x20 < c.toNat && c.toNat < 0x80 && c ≠ '#' && c ≠ '?'

theorem isPathChar_encodeByte_ofNat : ∀ n < 256,
    (encodeByte (UInt8.ofNat n)).all isPathChar = true := by
  decide +kernel

theorem isPathChar_of_mem_percentEncode {cs : List Char} {c : Char} (h : c ∈ percentEncode cs) :
    isPathChar c := by
  obtain ⟨b, -, hb⟩ := List.mem_flatMap.mp h
  have ha := isPathChar_encodeByte_ofNat b.toNat b.toNat_lt
  rw [UInt8.ofNat_toNat] at ha
  exact List.all_eq_true.mp ha c hb

theorem hexValue?_hexDigit (n : Nat) (h : n < 16) : Text.hexValue? (Text.hexDigit n) = some n := by
  interval_cases n <;> rfl

theorem unescape_cons_of_ne {c : Char} (h : c ≠ '%') (cs : List Char) :
    unescape (c :: cs) = UInt8.ofNat c.toNat :: unescape cs := by
  match cs with
  | [] => simp [unescape]
  | [d] => simp [unescape]
  | d :: e :: cs => simp [unescape, h]

theorem unescape_escape (b : UInt8) (cs : List Char) :
    unescape ('%' :: Text.hexDigit (b.toNat / 16) :: Text.hexDigit (b.toNat % 16) :: cs) =
      b :: unescape cs := by
  have hb := b.toNat_lt
  have hhigh := hexValue?_hexDigit (b.toNat / 16) (by omega)
  have hlow := hexValue?_hexDigit (b.toNat % 16) (Nat.mod_lt _ (by decide))
  have hsum : b.toNat / 16 * 16 + b.toNat % 16 = b.toNat := by omega
  simp [unescape, hhigh, hlow, hsum]

theorem unescape_encodeByte_append (b : UInt8) (cs : List Char) :
    unescape (encodeByte b ++ cs) = b :: unescape cs := by
  unfold encodeByte
  split
  · rename_i h
    have hlt : b.toNat < 128 := by
      simp only [isUnreserved, Bool.and_eq_true, decide_eq_true_eq, UInt8.lt_iff_toNat_lt] at h
      exact h.1
    have hc : (Char.ofNat b.toNat).toNat = b.toNat := by
      rw [Char.ofNat, dif_pos (Or.inl (by omega))]
      rfl
    have hne : Char.ofNat b.toNat ≠ '%' := by
      intro he
      rw [isUnreserved, he] at h
      simp at h
    rw [List.singleton_append, unescape_cons_of_ne hne, hc, UInt8.ofNat_toNat]
  · exact unescape_escape b cs

theorem unescape_percentEncode (cs : List Char) :
    unescape (percentEncode cs) = Text.Utf8.encode cs := by
  unfold percentEncode
  induction Text.Utf8.encode cs with
  | nil => rfl
  | cons b bs ih => rw [List.flatMap_cons, unescape_encodeByte_append, ih]

theorem percentDecode_of_ascii {cs : List Char} (h : ∀ c ∈ cs, c.toNat < 0x80) :
    percentDecode cs = Text.Utf8.decodeReplacing (unescape cs) := by
  cases cs with
  | nil => rw [percentDecode, unescape, Text.Utf8.decodeReplacing]
  | cons c cs =>
    have hc := h c List.mem_cons_self
    have hcs : ∀ d ∈ cs, decide (d.toNat < 0x80) = true :=
      fun d hd => decide_eq_true (h d (List.mem_cons_of_mem c hd))
    rw [percentDecode, if_pos hc, List.takeWhile_eq_self_iff.mpr hcs,
      List.dropWhile_eq_nil_iff.mpr hcs, percentDecode, List.append_nil]

/-- A text is read back from its escaped form. -/
theorem percentDecode_percentEncode (cs : List Char) : percentDecode (percentEncode cs) = cs := by
  have ha : ∀ c ∈ percentEncode cs, c.toNat < 0x80 := by
    intro c hc
    have hp := isPathChar_of_mem_percentEncode hc
    simp only [isPathChar, Bool.and_eq_true, decide_eq_true_eq] at hp
    exact hp.1.1.2
  rw [percentDecode_of_ascii ha, unescape_percentEncode, Text.Utf8.decodeReplacing_encode]

/-! ### Paths and URIs -/

theorem percentEncode_slash_cons (cs : List Char) :
    percentEncode ('/' :: cs) = '/' :: percentEncode cs := rfl

theorem toList_ofPath (p : Path) :
    (ofPath p).toList = 'f' :: 'i' :: 'l' :: 'e' :: ':' :: '/' :: '/' ::
      percentEncode p.toString.toList := by
  rw [ofPath, String.toList_append, String.toList_ofList]
  rfl

theorem isFile_ofPath (p : Path) : isFile (ofPath p) = true := by
  rw [isFile, toList_ofPath]
  rfl

theorem clean_toList_ofPath (p : Path) : clean (ofPath p).toList = (ofPath p).toList := by
  have hkeep : ∀ c ∈ (ofPath p).toList,
      decide (c ≠ '\t' ∧ c ≠ '\r' ∧ c ≠ '\n') = true := by
    intro c hc
    rw [toList_ofPath] at hc
    simp only [List.mem_cons] at hc
    rcases hc with rfl | rfl | rfl | rfl | rfl | rfl | rfl | hc
    all_goals first | decide | skip
    have hp := isPathChar_of_mem_percentEncode hc
    simp only [isPathChar, Bool.and_eq_true, decide_eq_true_eq] at hp
    apply decide_eq_true
    refine ⟨?_, ?_, ?_⟩ <;> (rintro rfl; simp at hp)
  have hdrop : (ofPath p).toList.dropWhile (·.toNat ≤ 0x20) = (ofPath p).toList := by
    rw [toList_ofPath]
    rfl
  rw [clean, hdrop]
  exact List.filter_eq_self.mpr hkeep

/-- The path in the URI of an absolute path is the escaped path. -/
theorem pathText_ofPath (p : Path) (hp : p.anchor = .root) :
    pathText (ofPath p).toList = .ok (percentEncode p.toString.toList) := by
  have hmem : ∀ c ∈ percentEncode p.toString.toList, c ≠ '#' ∧ c ≠ '?' := by
    intro c hc
    have h := isPathChar_of_mem_percentEncode hc
    simp only [isPathChar, Bool.and_eq_true, decide_eq_true_eq] at h
    exact ⟨h.1.2, h.2⟩
  have hscheme : splitScheme (clean (ofPath p).toList) =
      (['f', 'i', 'l', 'e'], '/' :: '/' :: percentEncode p.toString.toList) := by
    rw [clean_toList_ofPath, toList_ofPath]
    rfl
  have hauthority : splitAuthority ('/' :: '/' :: percentEncode p.toString.toList) =
      ([], percentEncode p.toString.toList) := by
    rw [Path.toList_toString_of_root p hp, percentEncode_slash_cons]
    rfl
  have hhash : (percentEncode p.toString.toList).takeWhile (· ≠ '#') =
      percentEncode p.toString.toList :=
    List.takeWhile_eq_self_iff.mpr fun c hc => decide_eq_true (hmem c hc).1
  have hquery : (percentEncode p.toString.toList).takeWhile (· ≠ '?') =
      percentEncode p.toString.toList :=
    List.takeWhile_eq_self_iff.mpr fun c hc => decide_eq_true (hmem c hc).2
  have hcheck : Authority.check [] = .ok () := rfl
  have hparameters : parameterSchemes.contains (String.ofList ['f', 'i', 'l', 'e']) = false := by
    decide
  rw [pathText, hscheme]
  simp only [hauthority, hcheck, hhash, hquery, hparameters]
  rfl

/-- An absolute path is read back from its URI. -/
theorem toPath_ofPath (p : Path) (hp : p.anchor = .root) : toPath (ofPath p) = .ok p := by
  rw [toPath, pathText_ofPath p hp]
  simp only [Except.map]
  rw [percentDecode_percentEncode, String.ofList_toList, Path.ofString_toString p hp]

/-! ### Documents in messages -/

/-- The document can be named in a message. -/
def IsNameable (uri : String) : Prop := ∃ name, displayName uri = .ok name

theorem isNameable_of_toPath {uri : String} {p : Path} (h : toPath uri = .ok p) :
    IsNameable uri := by
  unfold IsNameable displayName
  rw [h]
  split
  · exact ⟨_, rfl⟩
  · exact ⟨_, rfl⟩

end Uri

theorem Location.exists_render {l : Location} (h : Uri.IsNameable l.uri) :
    ∃ place, l.render = .ok place := by
  obtain ⟨name, hname⟩ := h
  rw [render, hname]
  exact ⟨_, rfl⟩

end Pearl
