import JavaTree.Proofs.Token.Adjacent

/-!
Quoted literals are written and read back.

What is written for a literal is read up to its closing quote and no further, whatever stands behind
it. So the text of a literal, put in front of any other text, is the first piece of what comes out.

    value      text         behind it     first piece
    tab, `"`   "\t\""       abc"          "\t\""
    NUL        "\0"         12            "\0"
    `\u0041`   "\\u0041"    "             "\\u0041"
    bell       '\u0007'     '             '\u0007'
-/

namespace JavaTree

/-- A string or a character between quotes. -/
def Kind.IsQuoted (k : Kind) : Prop := (∃ v, k = .string v) ∨ ∃ c, k = .character c

namespace Token

variable {t : Token}

/-- Nothing goes on with a quoted literal. -/
theorem endsBefore_quoted (ht : t.kind.IsQuoted) (r : List Char) : t.EndsBefore r := by
  rcases ht with ⟨v, hv⟩ | ⟨c, hc⟩
  · exact endsBefore_string hv r
  · exact endsBefore_character hc r

theorem text_ne_nil_of_quoted (ht : t.kind.IsQuoted) : t.text.toList ≠ [] := by
  rcases ht with ⟨v, hv⟩ | ⟨c, hc⟩
  · rw [text_string hv]
    nofun
  · rw [text_character hc]
    nofun

end Token

namespace Literal

/-- Escaping is undone by reading. The body that is written for a text is read up to the quote behind
it, and stands for that text. A literal that is put in front of any other text is the first piece
there, with the kind and the value that it has, and what is read behind it is that other text. -/
theorem escape_undone :
    (∀ (v : String) (quote : Char) (r : List Char), quote = '"' ∨ quote = '\'' →
      scan quote ((escape v quote).toList ++ [quote] ++ r) =
        ⟨((escape v quote).toList ++ [quote]).length, .closed v.toList⟩) ∧
    ∀ (t : Token) (r : String), t.kind.IsQuoted →
      Lexer.items (t.text ++ r) = .token ⟨t.kind, t.text, .start⟩ ::
        Lexer.cut 0 (Cursor.start.advanceAll t.text.toList) r.toList := by
  constructor
  · intro v quote r hquote
    rw [escape, String.toList_ofList, List.append_assoc, List.singleton_append,
      scan_escapeChars hquote, List.length_append, List.length_singleton]
  · intro t r ht
    have hread := Token.endsBefore_quoted ht r.toList
    have hcut := Lexer.cut_append (Token.text_ne_nil_of_quoted ht) hread .start
    rw [Lexer.items, String.toList_append, hcut, String.ofList_toList]
    rfl

/-- A bell between quotes is written by its code, and a digit behind a NUL is not taken for a part
of its escape. -/
theorem escape_undone_controls :
    scan '\'' ((escape "\x07" '\'').toList ++ ['\''] ++ ['\'']) =
      ⟨((escape "\x07" '\'').toList ++ ['\'']).length, .closed ['\x07']⟩ ∧
    Lexer.items ((⟨.string "\x0012", "", .start⟩ : Token).text ++ "\"") =
      .token ⟨.string "\x0012", "\"\\012\"", .start⟩ ::
        Lexer.cut 0 (Cursor.start.advanceAll "\"\\012\"".toList) "\"".toList :=
  ⟨escape_undone.1 "\x07" '\'' ['\''] (.inr rfl),
    escape_undone.2 ⟨.string "\x0012", "", .start⟩ "\"" (.inl ⟨_, rfl⟩)⟩

end Literal

end JavaTree
