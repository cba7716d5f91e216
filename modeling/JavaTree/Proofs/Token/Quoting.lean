import JavaTree.Token.Spacing

/-!
Quoted literals are read as the text they were written from.
-/

namespace JavaTree.Literal

theorem scan_quote (quote : Char) (rest : List Char) :
    scan quote (quote :: rest) = ⟨1, .closed []⟩ := by
  rw [scan.eq_def]
  simp

/-- A character that stands for itself. -/
theorem scan_plain {quote c : Char} (hquote : c ≠ quote) (hbreak : c ≠ '\n' ∧ c ≠ '\r')
    (hslash : c ≠ '\\') (rest : List Char) :
    scan quote (c :: rest) = (scan quote rest).after 1 (.prepend c) := by
  rw [scan.eq_def]
  simp [hquote, hbreak, hslash]

/-- A character behind a backslash. -/
theorem scan_short {quote e d : Char} (hquote : quote ≠ '\\') (he : unescape? e = some d)
    (rest : List Char) : scan quote ('\\' :: e :: rest) = (scan quote rest).after 2 (.prepend d) := by
  have hletter : e ≠ '\n' ∧ e ≠ '\r' ∧ e ≠ 'u' := by
    refine ⟨?_, ?_, ?_⟩ <;> rintro rfl <;> cases he
  rw [scan.eq_def]
  simp [hquote.symm, hletter, he]

/-- A character given by its code. -/
theorem scan_unit {quote w x y z : Char} {n : Nat} (hquote : quote ≠ '\\')
    (hn : Text.Hex.unit? w x y z = some n) (rest : List Char) :
    scan quote ('\\' :: 'u' :: w :: x :: y :: z :: rest) =
      (scan quote rest).after 6 (.prepend (ofUnit n)) := by
  rw [scan.eq_def]
  simp [hquote.symm, hn]

theorem unescape?_shortEscape? {c e : Char} (h : shortEscape? c = some e) : unescape? e = some c := by
  unfold shortEscape? at h
  split at h <;> cases h <;> rfl

theorem value?_digit : ∀ d < 16, Text.Hex.value? (Text.Hex.digit d) = some d := by decide

theorem unit?_four {n : Nat} (h : n < 65536) :
    ∃ w x y z, Text.Hex.four n = [w, x, y, z] ∧ Text.Hex.unit? w x y z = some n := by
  refine ⟨_, _, _, _, rfl, ?_⟩
  rw [Text.Hex.unit?, value?_digit _ (Nat.mod_lt _ (by decide)), value?_digit _ (Nat.mod_lt _ (by decide)),
    value?_digit _ (Nat.mod_lt _ (by decide)), value?_digit _ (Nat.mod_lt _ (by decide))]
  simp only [Option.some.injEq]
  omega

theorem ofUnit_toNat {c : Char} : ofUnit c.toNat = c := by
  have hvalid : c.toNat.isValidChar := c.valid
  rw [ofUnit, if_pos hvalid, Char.ofNat_toNat]

/-- Reading what was written for one character. -/
theorem scan_escapeChar {quote : Char} (hquote : quote = '"' ∨ quote = '\'') (c : Char)
    (rest : List Char) :
    scan quote (escapeChar quote c ++ rest) =
      (scan quote rest).after (escapeChar quote c).length (.prepend c) := by
  have hslash : quote ≠ '\\' := by rcases hquote with rfl | rfl <;> decide
  unfold escapeChar
  split
  · next e he => exact scan_short hslash (unescape?_shortEscape? he) rest
  · next he =>
    split
    · next hc =>
      subst hc
      exact scan_short hslash (by rcases hquote with rfl | rfl <;> rfl) rest
    · next hc =>
      split
      · next hcontrol =>
        have hlt : c.toNat < 65536 := by
          simp only [isControl, decide_eq_true_eq] at hcontrol
          omega
        obtain ⟨w, x, y, z, hfour, hunit⟩ := unit?_four hlt
        rw [hfour]
        have hscan := scan_unit hslash hunit rest
        rw [ofUnit_toNat] at hscan
        exact hscan
      · refine scan_plain hc ⟨?_, ?_⟩ ?_ rest <;> rintro rfl <;> cases he

/-- Reading what was written for a text gives the text. -/
theorem scan_escapeChars {quote : Char} (hquote : quote = '"' ∨ quote = '\'') (value rest : List Char) :
    scan quote (escapeChars quote value ++ quote :: rest) =
      ⟨(escapeChars quote value).length + 1, .closed value⟩ := by
  induction value with
  | nil => exact scan_quote quote rest
  | cons c value ih =>
    rw [escapeChars, List.flatMap_cons, List.append_assoc, scan_escapeChar hquote]
    rw [escapeChars] at ih
    rw [ih]
    simp only [Scan.after, Body.prepend, List.length_append]
    congr 1
    omega

end JavaTree.Literal
