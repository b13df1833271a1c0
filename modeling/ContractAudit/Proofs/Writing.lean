import ContractAudit.Proofs.Lexemes
import ContractAudit.Proofs.Words

/-! Texts of tokens with spaces between them. Main statement: a source that is written so is read as
these tokens. -/
namespace ContractAudit

open Source Token

theorem Piece.ofCode_scan {kind : TokenKind} {c : Char} {cs rest : List Char} (here : Location)
    (h : scan c (cs ++ rest) = ⟨.token kind, cs.length⟩) :
    ofCode here (c :: (cs ++ rest)) =
      ⟨.token kind, c :: cs, [], here⟩ :: ofCode (here.advanceOver (c :: cs)) rest := by
  have hfirst : first here c (cs ++ rest) = ⟨.token kind, c :: cs, [], here⟩ := by
    simp [first, h]
  have hlater : later c (cs ++ rest) = rest := by
    simp [later, h]
  rw [ofCode_cons, hfirst, hlater, extent, List.append_nil]

namespace Token
variable {ws : List Word} {w : Word}

/-- The texts of the words with spaces between them. -/
def written (ws : List Word) : List Char := [' '].intercalate (ws.map fun w => w.2.toList)

/-- What is written after a word, these words being left. -/
def writtenAfter : List Word → List Char
  | [] => []
  | w :: ws => ' ' :: written (w :: ws)

theorem written_cons (w : Word) (ws : List Word) :
    written (w :: ws) = w.2.toList ++ writtenAfter ws := by
  cases ws <;> simp [written, writtenAfter]

theorem writtenAfter_atGap (ws : List Word) : AtGap (writtenAfter ws) := by
  cases ws with
  | nil => nofun
  | cons w ws =>
    rintro _ ⟨⟩
    rfl

theorem written_head (h : ∀ w ∈ ws, Lexeme w.1 w.2) :
    ∀ c ∈ (written ws).head?, isSpace c = false := by
  cases ws with
  | nil => nofun
  | cons w ws =>
    obtain ⟨c, cs, hw, hspace, -⟩ := (h w List.mem_cons_self).readsAs
    rw [written_cons, hw]
    rintro _ ⟨⟩
    exact hspace

/- The space before the first word is dropped. -/
theorem ofPieces_space (h : ∀ w ∈ ws, Lexeme w.1 w.2) (here : Location) :
    ofPieces none (Piece.ofCode here (' ' :: written ws)) =
      ofPieces none (Piece.ofCode (here.advanceOver [' ']) (written ws)) := by
  have hrun : runLength isSpace ([] ++ written ws) = 0 := runLength_append nofun (written_head h)
  have hscan : scan ' ' ([] ++ written ws) = ⟨.token .blank, 0⟩ :=
    congrArg (Scanned.mk (.token .blank)) hrun
  rw [← List.nil_append (written ws), Piece.ofCode_scan here hscan]
  rfl

theorem ofPieces_lexeme (h : Lexeme w.1 w.2) (here : Location) {ps : List Piece} {ts : List Token}
    (hps : ofPieces none ps = .ok ts) :
    ofPieces none (⟨.token w.1, w.2.toList, [], here⟩ :: ps) =
      .ok (⟨w.1, w.2, here, none⟩ :: ts) := by
  obtain ⟨hdoc, htrivia⟩ := h.kept
  simp [ofPieces, Piece.token, hdoc, htrivia, hps]

theorem ofPieces_written (h : ∀ w ∈ ws, Lexeme w.1 w.2) (here : Location) :
    ∃ ts, ofPieces none (Piece.ofCode here (written ws)) = .ok ts ∧ ts.map word = ws ∧
      ∀ t ∈ ts, t.doc = none := by
  induction ws generalizing here with
  | nil => exact ⟨[], by simp [written, Piece.ofCode, ofPieces], rfl, nofun⟩
  | cons w ws ih =>
    have hw := h w List.mem_cons_self
    have hws : ∀ v ∈ ws, Lexeme v.1 v.2 := fun v hv => h v (List.mem_cons_of_mem _ hv)
    obtain ⟨c, cs, hchars, -, hscan⟩ := hw.readsAs
    have hafter (there : Location) :
        ∃ ts, ofPieces none (Piece.ofCode there (writtenAfter ws)) = .ok ts ∧ ts.map word = ws ∧
          ∀ t ∈ ts, t.doc = none := by
      cases ws with
      | nil => exact ih hws there
      | cons v ws =>
        rw [writtenAfter, ofPieces_space hws]
        exact ih hws _
    obtain ⟨ts, hts, hword, hdoc⟩ := hafter (here.advanceOver w.2.toList)
    refine ⟨⟨w.1, w.2, here, none⟩ :: ts, ?_, ?_, ?_⟩
    · rw [written_cons, hchars, List.cons_append,
        Piece.ofCode_scan here (hscan _ (writtenAfter_atGap ws)), ← hchars]
      exact ofPieces_lexeme hw here hts
    · rw [List.map_cons, hword]
      rfl
    · simpa using hdoc

/-- Words of any classes, written after an open tag with single spaces between them, are read back:
the same kinds and texts in the same order, and no docblock. -/
theorem ofSource_undoes_writing (ws : List Word) (h : ∀ w ∈ ws, Lexeme w.1 w.2) :
    ∃ ts, ofSource ("<?php " ++ " ".intercalate (ws.map (·.2))) = .ok ts ∧ ts.map word = ws ∧
      ∀ t ∈ ts, t.doc = none := by
  have hchars : ("<?php " ++ " ".intercalate (ws.map (·.2))).toList =
      '<' :: (['?', 'p', 'h', 'p'] ++ ' ' :: written ws) := by
    rw [String.toList_append, String.toList_intercalate, List.map_map]
    rfl
  have hinline : inlineLength ('<' :: (['?', 'p', 'h', 'p'] ++ ' ' :: written ws)) = 0 := rfl
  have hscan : scan '<' (['?', 'p', 'h', 'p'] ++ ' ' :: written ws) = ⟨.token .openTag, 4⟩ := rfl
  obtain ⟨ts, hts, hword, hdoc⟩ := ofPieces_written h
    ((Location.start.advanceOver ['<', '?', 'p', 'h', 'p']).advanceOver [' '])
  refine ⟨ts, ?_, hword, hdoc⟩
  rw [ofSource, Piece.ofSource, hchars, hinline, List.take_zero, List.drop_zero,
    Piece.ofCode_scan _ hscan]
  rw [← hts, ← ofPieces_space h]
  rfl

namespace Sample

/-- Words that other words begin like. -/
def words : List Word :=
  [(.symbol .question, "?"), (.symbol .shl, "<<"), (.heredoc, "<<<A\nAB\n A"),
    (.symbol .slash, "/"), (.keyword .kwInstanceOf, "InstanceOf"), (.name, "\\instanceof\\A1"),
    (.var, "$x"), (.number, "0x_1F"), (.number, ".5e-3"), (.string, "'\\''")]

theorem name_pattern : "\\instanceof\\A1".toList ∈ Pattern.name := by
  have hfirst : "instanceof".toList ∈ Pattern.identifier :=
    Pattern.mem_first_mul_star.mpr
      ⟨'i', "nstanceof".toList, by decide, rfl, List.all_eq_true.mp (by decide)⟩
  have hsecond : ['\\', 'A', '1'] ∈ Pattern.oneOf ['\\'] * Pattern.identifier :=
    Language.append_mem_mul (Pattern.singleton_mem_oneOf (by simp))
      (Pattern.mem_first_mul_star.mpr ⟨'A', ['1'], rfl, rfl, List.all_eq_true.mp (by decide)⟩)
  have hlead : ['\\'] ∈ Pattern.optional (Pattern.oneOf ['\\']) :=
    .inr (Pattern.singleton_mem_oneOf (by simp))
  exact Language.append_mem_mul (Language.append_mem_mul hlead hfirst)
    (Language.join_mem_kstar (L := [['\\', 'A', '1']]) (by simpa using hsecond))

theorem hexadecimal_pattern : "0x_1F".toList ∈ Pattern.number := by
  have hletter : ['0', 'x'] ∈ Pattern.oneOf ['0'] * Pattern.oneOf ['x', 'X'] :=
    Language.append_mem_mul (Pattern.singleton_mem_oneOf (by simp))
      (Pattern.singleton_mem_oneOf (by simp))
  have hdigits : ['_', '1', 'F'] ∈ Pattern.many1 isHexOrGap :=
    Pattern.mem_first_mul_star.mpr ⟨'_', ['1', 'F'], rfl, rfl, List.all_eq_true.mp (by decide)⟩
  exact .inl (.inl (.inl (.inl (.inl (.inr (Language.append_mem_mul hletter hdigits))))))

theorem fraction_pattern : ".5e-3".toList ∈ Pattern.number := by
  have hdigits : ['.', '5'] ∈ Pattern.oneOf ['.'] * Pattern.digits :=
    Language.append_mem_mul (Pattern.singleton_mem_oneOf (by simp))
      (Pattern.mem_first_mul_star.mpr ⟨'5', [], rfl, rfl, nofun⟩)
  have hsign : ['e', '-'] ∈
      Pattern.oneOf ['e', 'E'] * Pattern.optional (Pattern.oneOf ['+', '-']) :=
    Language.append_mem_mul (Pattern.singleton_mem_oneOf (by simp))
      (.inr (Pattern.singleton_mem_oneOf (by simp)))
  have hexponent : ['e', '-', '3'] ∈ Pattern.optional Pattern.exponent :=
    .inr (Language.append_mem_mul hsign
      (Pattern.mem_first_mul_star.mpr ⟨'3', [], rfl, rfl, nofun⟩))
  exact .inl (.inr (Language.append_mem_mul hdigits hexponent))

theorem string_pattern : "'\\''".toList ∈ Pattern.quoted '\'' := by
  have hquote : ['\''] ∈ Pattern.oneOf ['\''] := Pattern.singleton_mem_oneOf (by simp)
  have hescape : ['\\', '\''] ∈ Pattern.oneOf ['\\'] * Pattern.one (· != '\n') :=
    Language.append_mem_mul (Pattern.singleton_mem_oneOf (by simp)) ⟨'\'', rfl, rfl⟩
  refine Language.append_mem_mul (Language.append_mem_mul hquote
    (Language.join_mem_kstar (L := [['\\', '\'']]) ?_)) hquote
  simpa using .inr hescape

theorem lexemes : ∀ w ∈ words, Lexeme w.1 w.2 := by
  simp only [words, List.forall_mem_cons, List.not_mem_nil, false_implies, implies_true, and_true]
  refine ⟨.symbol (by decide), .symbol (by decide), .heredoc rfl (by decide +kernel),
    .symbol (by decide), .keyword (by decide +kernel), .name name_pattern fun k => ?_, .var ?_,
    .number hexadecimal_pattern, .number fraction_pattern, .string (by simp) string_pattern⟩
  · cases k <;> decide +kernel
  · have hdollar : ['$'] ∈ Pattern.oneOf ['$'] := Pattern.singleton_mem_oneOf (by simp)
    have hident : ['x'] ∈ Pattern.identifier :=
      Pattern.mem_first_mul_star.mpr ⟨'x', [], rfl, rfl, nofun⟩
    exact Language.append_mem_mul hdollar hident

end Sample

theorem ofSource_undoes_writing_sample :
    ∃ ts, ofSource ("<?php " ++ " ".intercalate (Sample.words.map (·.2))) = .ok ts ∧
      ts.map word = Sample.words ∧ ∀ t ∈ ts, t.doc = none :=
  ofSource_undoes_writing Sample.words Sample.lexemes

end Token

end ContractAudit
