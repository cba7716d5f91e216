import JavaTree.Json.Reader
import JavaTree.Proofs.Token.Escaped

/-!
Texts that are written by their code units.

A character is one code unit, or from U+10000 on a pair of them. A literal can be written with escapes
alone, one for each code unit of its text. Its reading takes them one by one, so half of a pair stands
for U+FFFD, also when the other half is right behind it: the literal stands for the text exactly when
no character of it is a pair. In a document the same escapes are put together.

    text    code units    literal           value             in a document
    é       e9            "\u00E9"          é                 é
    😀      d83d de00     "\ud83d\ude00"    U+FFFD U+FFFD     😀
-/

namespace JavaTree

namespace Text

/-- The code units of a character: its number, or two halves that share what is above 65535. -/
def units (c : Char) : List Nat :=
  if c.toNat < 0x10000 then [c.toNat]
  else [0xd800 + (c.toNat - 0x10000) / 0x400, 0xdc00 + (c.toNat - 0x10000) % 0x400]

/-- A character is no half of a pair, and there are none behind U+10FFFF. -/
theorem toNat_cases (c : Char) : c.toNat < 0xd800 ∨ 0xdfff < c.toNat ∧ c.toNat < 0x110000 := c.valid

/-- The code units of a text are put together to that text where pairs are known. -/
theorem assemble?_units (cs : List Char) :
    Json.assemble? ((cs.flatMap units).map .unit) = some cs := by
  induction cs with
  | nil => rfl
  | cons c cs ih =>
    have hvalid := toNat_cases c
    rw [List.flatMap_cons, List.map_append, units]
    split
    · have hhigh : Json.isHigh c.toNat = false := by simp [Json.isHigh]; omega
      have hlow : Json.isLow c.toNat = false := by simp [Json.isLow]; omega
      rw [List.map_singleton, List.singleton_append, Json.assemble?.eq_def]
      simp [hhigh, hlow, ih]
    · have hhigh : Json.isHigh (0xd800 + (c.toNat - 0x10000) / 0x400) = true := by
        simp [Json.isHigh]; omega
      have hlow : Json.isLow (0xdc00 + (c.toNat - 0x10000) % 0x400) = true := by
        simp [Json.isLow]; omega
      have hpair : Json.pairChar (0xd800 + (c.toNat - 0x10000) / 0x400)
          (0xdc00 + (c.toNat - 0x10000) % 0x400) = c := by
        have hnumber : 0x10000 + (0xd800 + (c.toNat - 0x10000) / 0x400 - 0xd800) * 0x400 +
            (0xdc00 + (c.toNat - 0x10000) % 0x400 - 0xdc00) = c.toNat := by omega
        rw [Json.pairChar, hnumber, Char.ofNat_toNat]
      rw [List.map_cons, List.map_singleton, List.cons_append, List.singleton_append,
        Json.assemble?.eq_def]
      simp [hhigh, hlow, hpair, ih]

end Text

namespace Literal

/-- A code unit that is written as an escape, with digits in either case. -/
def IsEscapeOf (n : Nat) (e : List Char) : Prop :=
  ∃ w x y z, e = ['\\', 'u', w, x, y, z] ∧ Text.Hex.unit? w x y z = some n

/-- Escapes stand for the characters of their code units, one by one. -/
theorem scan_units {quote : Char} (hquote : quote ≠ '\\') {us : List Nat} {es : List (List Char)}
    (h : List.Forall₂ IsEscapeOf us es) (rest : List Char) :
    scan quote (es.flatten ++ quote :: rest) = ⟨es.flatten.length + 1, .closed (us.map ofUnit)⟩ := by
  induction h with
  | nil => exact scan_quote quote rest
  | cons he _ ih =>
    obtain ⟨w, x, y, z, rfl, hunit⟩ := he
    rw [List.flatten_cons, List.append_assoc, List.cons_append, List.cons_append,
      List.cons_append, List.cons_append, List.cons_append, List.cons_append, List.nil_append,
      scan_unit hquote hunit, ih]
    simp [Scan.after, Body.prepend]

/-- What the code units of a character stand for one by one. -/
theorem map_ofUnit_units (c : Char) : (Text.units c).map ofUnit =
    if c.toNat < 0x10000 then [c] else ['\ufffd', '\ufffd'] := by
  have hvalid := Text.toNat_cases c
  rw [Text.units]
  split
  · rw [List.map_singleton, ofUnit_toNat]
  · have hhalf (n : Nat) (h : 0xd800 ≤ n ∧ n < 0xe000) : ofUnit n = '\ufffd' :=
      if_neg fun hn => by rcases hn with hn | hn <;> omega
    rw [List.map_cons, List.map_singleton, hhalf _ (by omega), hhalf _ (by omega)]

/-- The text that is left of a text when its pairs are not put together. -/
def unpaired (cs : List Char) : List Char :=
  cs.flatMap fun c => if c.toNat < 0x10000 then [c] else ['\ufffd', '\ufffd']

theorem map_ofUnit_flatMap (cs : List Char) : (cs.flatMap Text.units).map ofUnit = unpaired cs := by
  rw [List.map_flatMap, unpaired]
  simp only [map_ofUnit_units]

/-- Only a text without pairs is left as it is. -/
theorem unpaired_eq_self_iff (cs : List Char) : unpaired cs = cs ↔ ∀ c ∈ cs, c.toNat < 0x10000 := by
  induction cs with
  | nil => simp [unpaired]
  | cons c cs ih =>
    rw [unpaired] at ih
    rw [unpaired, List.flatMap_cons, List.forall_mem_cons]
    split
    · next hc => simp [hc, ih]
    · next hc =>
      refine iff_of_false (fun h => hc ?_) (fun h => hc h.1)
      -- the first character would be U+FFFD itself, which is no pair
      rw [← (List.cons.inj h).1]
      decide

/-- A text that is written by its code units, which put together are the text, is read as one literal,
and what is written for that literal is read the same. The literal stands for the text exactly when no
character of it is a pair. -/
theorem units_undone_iff (v : String) {es : List (List Char)}
    (hes : List.Forall₂ IsEscapeOf (v.toList.flatMap Text.units) es) (r : String) :
    let literal := String.ofList ('"' :: es.flatten ++ ['"'])
    let value := String.ofList (unpaired v.toList)
    let t : Token := ⟨.string value, literal, .start⟩
    Json.assemble? ((v.toList.flatMap Text.units).map .unit) = some v.toList ∧
      Lexer.items (literal ++ r) =
        .token t :: Lexer.cut 0 (Cursor.start.advanceAll literal.toList) r.toList ∧
      Lexer.items (t.text ++ r) = .token ⟨.string value, t.text, .start⟩ ::
        Lexer.cut 0 (Cursor.start.advanceAll t.text.toList) r.toList ∧
      (value = v ↔ ∀ c ∈ v.toList, c.toNat < 0x10000) := by
  intro literal value t
  refine ⟨Text.assemble?_units v.toList, ?_, ?_, ?_⟩
  · have hliteral : literal.toList = '"' :: (es.flatten ++ ['"']) := String.toList_ofList
    have hscan := @scan_units '"' (by decide) _ _ hes r.toList
    have hread : Lexer.read (literal.toList ++ r.toList) =
        ⟨.ok (.string value), literal.toList.length⟩ := by
      rw [hliteral, List.cons_append, List.append_assoc, List.singleton_append, Lexer.read,
        Lexer.readString, hscan, map_ofUnit_flatMap]
      simp [value]
    have hcut := Lexer.cut_append (by rw [hliteral]; exact List.cons_ne_nil _ _) hread .start
    rw [Lexer.items, String.toList_append, hcut, String.ofList_toList]
    rfl
  · have ht : t.kind.IsQuoted := .inl ⟨value, rfl⟩
    have hread := Token.endsBefore_quoted ht r.toList
    have hcut := Lexer.cut_append (Token.text_ne_nil_of_quoted ht) hread .start
    rw [Lexer.items, String.toList_append, hcut, String.ofList_toList]
    rfl
  · rw [← unpaired_eq_self_iff, ← String.toList_inj, String.toList_ofList]

/-- Digits in either case, and a character of the last code unit. -/
theorem units_undone_singles :
    let literal := "\"\\u00E9\\uffff\""
    let t : Token := ⟨.string "é\uffff", literal, .start⟩
    List.Forall₂ IsEscapeOf ("é\uffff".toList.flatMap Text.units) ["\\u00E9".toList, "\\uffff".toList] ∧
      Lexer.items (literal ++ "1") =
        .token t :: Lexer.cut 0 (Cursor.start.advanceAll literal.toList) "1".toList ∧
      Lexer.items (t.text ++ "1") = .token ⟨.string "é\uffff", t.text, .start⟩ ::
        Lexer.cut 0 (Cursor.start.advanceAll t.text.toList) "1".toList := by
  have hes : List.Forall₂ IsEscapeOf ("é\uffff".toList.flatMap Text.units)
      ["\\u00E9".toList, "\\uffff".toList] :=
    .cons ⟨'0', '0', 'E', '9', rfl, by decide⟩ (.cons ⟨'f', 'f', 'f', 'f', rfl, by decide⟩ .nil)
  have hundone := units_undone_iff "é\uffff" hes "1"
  exact ⟨hes, hundone.2.1, hundone.2.2.1⟩

/-- Both halves of a pair are lost. -/
theorem units_not_undone_pair :
    List.Forall₂ IsEscapeOf ("😀".toList.flatMap Text.units) ["\\ud83d".toList, "\\ude00".toList] ∧
      Lexer.items "\"\\ud83d\\ude00\"" =
        [.token ⟨.string "\ufffd\ufffd", "\"\\ud83d\\ude00\"", .start⟩] ∧
      "\ufffd\ufffd" ≠ "😀" :=
  ⟨.cons ⟨'d', '8', '3', 'd', rfl, by decide⟩ (.cons ⟨'d', 'e', '0', '0', rfl, by decide⟩ .nil),
    by decide +kernel, by decide⟩

end Literal

end JavaTree
