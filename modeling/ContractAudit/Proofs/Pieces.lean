import ContractAudit.Token.Basic
import Mathlib.Data.List.Infix

/-! The pieces of a source. Main statement: put one after the other, with the text that is skipped
before the first one and after each close tag, they are the source, and each one is placed by the
text before it. -/
namespace ContractAudit

open Source Text

namespace Token

theorem runLength_le (p : Char → Bool) (cs : List Char) : runLength p cs ≤ cs.length :=
  (List.takeWhile_prefix p).length_le

theorem nameLength_le (cs : List Char) : nameLength cs ≤ cs.length := by
  fun_induction nameLength cs <;> simp_all only [List.length_cons, List.length_nil] <;> omega

theorem radixLength_le (cs : List Char) : radixLength cs ≤ cs.length := by
  cases cs with
  | nil => simp [radixLength]
  | cons letter cs =>
    simp only [radixLength, List.length_cons]
    split
    · omega
    · next p _ =>
      have hrun := runLength_le p cs
      split <;> omega

theorem exponentLength_le (cs : List Char) : exponentLength cs ≤ cs.length := by
  unfold exponentLength
  split
  · next e s cs =>
    have hrun := runLength_le isDigit cs
    simp only [List.length_cons]
    repeat' split
    all_goals omega
  · simp

theorem fractionLength_le (cs : List Char) : fractionLength cs ≤ cs.length := by
  unfold fractionLength
  split
  · next p d cs =>
    have hrun := runLength_le isDigitOrGap cs
    have hexp := exponentLength_le (cs.drop (runLength isDigitOrGap cs))
    rw [List.length_drop] at hexp
    simp only [List.length_cons]
    split <;> omega
  · simp

theorem numberLength_le (c : Char) (cs : List Char) : numberLength c cs ≤ cs.length := by
  have hradix := radixLength_le cs
  have hrun := runLength_le isDigitOrGap cs
  have hfraction := fractionLength_le (cs.drop (runLength isDigitOrGap cs))
  have hexp := exponentLength_le (cs.drop (runLength isDigitOrGap cs))
  rw [List.length_drop] at hfraction hexp
  simp only [numberLength]
  repeat' split
  all_goals omega

theorem quotedLength_le (quote : Char) (cs : List Char) :
    (quotedLength quote cs).1 ≤ cs.length := by
  fun_induction quotedLength quote cs <;> simp_all

theorem indexOf?_le {word cs : List Char} {n : Nat} (h : indexOf? word cs = some n) :
    n + word.length ≤ cs.length := by
  induction cs generalizing n with
  | nil =>
    obtain ⟨rfl, rfl⟩ : word = [] ∧ 0 = n := by simpa [indexOf?] using h
    simp
  | cons c cs ih =>
    unfold indexOf? at h
    split at h
    · next hpre =>
      have hlen := (List.isPrefixOf_iff_prefix.mp hpre).length_le
      cases h
      omega
    · obtain ⟨m, hm, rfl⟩ := Option.map_eq_some_iff.mp h
      have := ih hm
      simp only [List.length_cons]
      omega

theorem flatten_fullLines (cs : List Char) : (fullLines cs).flatten = cs := by
  induction cs with
  | nil => rfl
  | cons c cs ih =>
    unfold fullLines
    split
    · simp [ih]
    · split <;> simp_all

theorem closesHeredoc_le {label line : List Char} (h : closesHeredoc label line = true) :
    runLength isIndent line + label.length ≤ line.length := by
  have hlabel : label <+: line.dropWhile isIndent := by
    simp only [closesHeredoc, Bool.and_eq_true] at h
    exact List.isPrefixOf_iff_prefix.mp h.1
  have hsplit := congrArg List.length (List.takeWhile_append_dropWhile (p := isIndent) (l := line))
  rw [List.length_append] at hsplit
  have := hlabel.length_le
  unfold runLength
  omega

theorem heredocBody?_le {label : List Char} {lines : List (List Char)} {n : Nat}
    (h : heredocBody? label lines = some n) : n ≤ lines.flatten.length := by
  induction lines generalizing n with
  | nil => simp [heredocBody?] at h
  | cons line rest ih =>
    rw [List.flatten_cons, List.length_append]
    unfold heredocBody? at h
    split at h
    · next hcloses =>
      have := closesHeredoc_le hcloses
      simp only [Option.some.injEq] at h
      omega
    · obtain ⟨m, hm, rfl⟩ := Option.map_eq_some_iff.mp h
      have := ih hm
      omega

theorem heredocLength?_le {cs : List Char} {n : Nat} (h : heredocLength? cs = some n) :
    n ≤ cs.length := by
  simp only [heredocLength?] at h
  split at h
  · simp at h
  · next c body hbody =>
    split at h
    · simp at h
    · obtain ⟨m, hm, rfl⟩ := Option.map_eq_some_iff.mp h
      have hlen := heredocBody?_le hm
      have hrest := congrArg List.length hbody
      rw [flatten_fullLines] at hlen
      simp only [List.length_drop, List.length_cons] at hrest
      omega

theorem lineCommentLength_le (cs : List Char) : lineCommentLength cs ≤ cs.length := by
  have hline := runLength_le (· != '\n') cs
  unfold lineCommentLength
  extract_lets line
  have hlen : line.length ≤ cs.length := hline
  cases hfound : indexOf? ['?', '>'] line with
  | none => exact hlen
  | some n =>
    have := indexOf?_le hfound
    simp only [Option.getD_some]
    omega

theorem longest?_le {cs : List Char} {s : Symbol} {n : Nat} (h : Symbol.longest? cs = some (s, n)) :
    n ≤ cs.length := by
  obtain ⟨⟨t, s'⟩, hfound, heq⟩ := Option.map_eq_some_iff.mp h
  have hpre : t <+: cs := List.isPrefixOf_iff_prefix.mp (by simpa using List.find?_some hfound)
  cases heq
  exact hpre.length_le

/-- The two ways to begin code; the first in any letter case. -/
def OpenTag (tag : List Char) : Prop :=
  tag.map Char.toLower = ['<', '?', 'p', 'h', 'p'] ∨ tag = ['<', '?', '=']

/-- Text in which no code begins. -/
def Inline (cs : List Char) : Prop := ∀ tag, OpenTag tag → ¬ tag <:+: cs

/-- The end, or a place where code begins. -/
def AtCode (cs : List Char) : Prop := cs = [] ∨ ∃ tag, OpenTag tag ∧ tag <+: cs

theorem opensCode_iff {cs : List Char} :
    opensCode cs = true ↔ ∃ tag, OpenTag tag ∧ tag <+: cs := by
  simp only [opensCode, Bool.or_eq_true, beq_iff_eq]
  constructor
  · rintro (h | h)
    · exact ⟨cs.take 5, .inl h, List.take_prefix 5 cs⟩
    · exact ⟨cs.take 3, .inr h, List.take_prefix 3 cs⟩
  · rintro ⟨tag, htag | rfl, rest, rfl⟩
    · have hlen : tag.length = 5 := by simpa using congrArg List.length htag
      left
      rw [← hlen, List.take_left, htag]
    · simp

/- What is skipped up to the next open tag. -/
theorem inline_take (cs : List Char) : Inline (cs.take (inlineLength cs)) := by
  induction cs with
  | nil =>
    rintro tag htag hin
    simp only [List.take_nil, List.infix_nil] at hin
    subst hin
    simp [OpenTag] at htag
  | cons c cs ih =>
    unfold inlineLength
    split
    · rintro tag htag hin
      simp only [List.take_zero, List.infix_nil] at hin
      subst hin
      simp [OpenTag] at htag
    · next hopens =>
      intro tag htag hin
      rw [List.take_succ_cons] at hin
      rcases List.infix_cons_iff.mp hin with hpre | hin
      · have hall : c :: cs.take (inlineLength cs) <+: c :: cs :=
          List.prefix_cons_inj c |>.mpr (List.take_prefix _ _)
        exact hopens (opensCode_iff.mpr ⟨tag, htag, hpre.trans hall⟩)
      · exact ih tag htag hin

theorem atCode_drop (cs : List Char) : AtCode (cs.drop (inlineLength cs)) := by
  induction cs with
  | nil => exact .inl rfl
  | cons c cs ih =>
    unfold inlineLength
    split
    · next h => exact .inr (opensCode_iff.mp h)
    · exact ih

/-- What is read belongs to the text and is no close tag. -/
structure Scanned.Inside (s : Scanned) (cs : List Char) : Prop where
  fits : s.more ≤ cs.length
  notClose : s.reading ≠ .closeTag

theorem Scanned.Inside.ite {p : Prop} [Decidable p] {s t : Scanned} {cs : List Char}
    (hs : p → s.Inside cs) (ht : ¬ p → t.Inside cs) : (if p then s else t).Inside cs := by
  by_cases h : p
  · simpa [h] using hs h
  · simpa [h] using ht h

theorem scanWord_inside (c : Char) (cs : List Char) : (scanWord c cs).Inside cs :=
  ⟨nameLength_le cs, by simp [scanWord]⟩

theorem scanSymbol_inside (c : Char) (cs : List Char) : (scanSymbol c cs).Inside cs := by
  unfold scanSymbol
  split
  · next s n h =>
    have hle := longest?_le h
    rw [List.length_cons] at hle
    exact ⟨by simp only; omega, by simp⟩
  · exact ⟨by simp, by simp⟩

theorem scanQuoted_inside (quote : Char) (cs : List Char) : (scanQuoted quote cs).Inside cs := by
  have hle := quotedLength_le quote cs
  unfold scanQuoted
  split
  · next n h => exact ⟨by simpa [h] using hle, by simp⟩
  · next n h => exact ⟨by simpa [h] using hle, by simp⟩

theorem scanDollar_inside (cs : List Char) : (scanDollar cs).Inside cs := by
  unfold scanDollar
  split
  · exact ⟨runLength_le _ cs, by simp⟩
  · exact scanSymbol_inside _ cs

theorem scanBackslash_inside (cs : List Char) : (scanBackslash cs).Inside cs := by
  unfold scanBackslash
  split
  · exact ⟨nameLength_le cs, by simp⟩
  · exact scanSymbol_inside _ cs

theorem scanDot_inside (cs : List Char) : (scanDot cs).Inside cs := by
  unfold scanDot
  split
  · have hle := fractionLength_le ('.' :: cs)
    rw [List.length_cons] at hle
    exact ⟨by simp only; omega, by simp⟩
  · exact scanSymbol_inside _ cs

theorem scanDocComment_inside (cs : List Char) :
    (scanDocComment cs).Inside ('*' :: '*' :: cs) := by
  unfold scanDocComment
  split
  · next i h =>
    have hle := indexOf?_le h
    simp only [List.length_cons, List.length_nil] at hle
    exact ⟨by simp only [List.length_cons]; omega, by simp⟩
  · split
    · exact ⟨by simp, by simp⟩
    · split
      · next h => exact ⟨by simp [h], by simp⟩
      · split <;> exact ⟨by simp, by simp⟩

theorem scanBlockComment_inside (cs : List Char) : (scanBlockComment cs).Inside ('*' :: cs) := by
  unfold scanBlockComment
  split
  · next i h =>
    have hle := indexOf?_le h
    simp only [List.length_cons, List.length_nil] at hle
    exact ⟨by simp only [List.length_cons]; omega, by simp⟩
  · split <;> exact ⟨by simp, by simp⟩

theorem scanSlash_inside (cs : List Char) : (scanSlash cs).Inside cs := by
  unfold scanSlash
  split
  · next cs => exact ⟨Nat.succ_le_succ (lineCommentLength_le cs), by simp⟩
  · next cs => exact scanDocComment_inside cs
  · next cs _ => exact scanBlockComment_inside cs
  · exact scanSymbol_inside _ cs

theorem scanHash_inside (cs : List Char) : (scanHash cs).Inside cs := by
  unfold scanHash
  split
  · exact ⟨by simp, by simp⟩
  · exact ⟨lineCommentLength_le cs, by simp⟩

theorem scanHeredoc_inside (cs : List Char) : (scanHeredoc cs).Inside ('<' :: '<' :: cs) := by
  unfold scanHeredoc
  split
  · next n h => exact ⟨Nat.add_le_add_right (heredocLength?_le h) 2, by simp⟩
  · exact ⟨by simp, by simp⟩

theorem scanLess_inside (cs : List Char) : (scanLess cs).Inside cs := by
  unfold scanLess
  split
  · next cs => exact scanHeredoc_inside cs
  · exact ⟨by simp, by simp⟩
  · next hecho =>
    split
    · next h =>
      obtain ⟨tag, htag | rfl, hpre⟩ := opensCode_iff.mp h
      · have hlen : tag.length = 5 := by simpa using congrArg List.length htag
        have hle := hpre.length_le
        rw [List.length_cons] at hle
        exact ⟨by simp only; omega, by simp⟩
      · obtain ⟨rest, hrest⟩ := hpre
        cases hrest
        exact absurd rfl (hecho rest)
    · exact scanSymbol_inside _ cs

/-- A close tag is read where it stands. Whatever else is read is none, and ends within the text. -/
theorem scan_cases (c : Char) (cs : List Char) :
    (∃ rest, c = '?' ∧ cs = '>' :: rest ∧ scan c cs = ⟨.closeTag, 1⟩) ∨ (scan c cs).Inside cs := by
  by_cases hquestion : c = '?'
  · subst hquestion
    have hscan : scan '?' cs = scanQuestion cs := rfl
    rw [hscan]
    unfold scanQuestion
    split
    · next rest => exact .inl ⟨rest, rfl, rfl, rfl⟩
    · exact .inr (scanSymbol_inside _ _)
  · right
    unfold scan
    refine .ite (fun _ => ⟨runLength_le _ cs, by simp⟩) fun _ => ?_
    refine .ite (fun _ => scanWord_inside c cs) fun _ => ?_
    refine .ite (fun _ => ⟨numberLength_le c cs, by simp⟩) fun _ => ?_
    refine .ite (fun _ => scanQuoted_inside c cs) fun _ => ?_
    refine .ite (fun _ => ⟨Nat.zero_le _, by simp⟩) fun _ => ?_
    refine .ite (fun _ => scanDollar_inside cs) fun _ => ?_
    refine .ite (fun _ => scanBackslash_inside cs) fun _ => ?_
    refine .ite (fun _ => scanDot_inside cs) fun _ => ?_
    refine .ite (fun _ => scanSlash_inside cs) fun _ => ?_
    refine .ite (fun _ => scanHash_inside cs) fun _ => ?_
    refine .ite (fun h => absurd h hquestion) fun _ => ?_
    exact .ite (fun _ => scanLess_inside cs) fun _ => scanSymbol_inside c cs

theorem scan_fits (c : Char) (cs : List Char) : (scan c cs).more ≤ cs.length := by
  rcases scan_cases c cs with ⟨rest, -, rfl, hscan⟩ | h
  · simp [hscan]
  · exact h.fits

end Token

/-- The line is told by the newlines before a place, the column by the characters since the last of
them, the offset by the bytes. -/
theorem Source.Location.advanceOver_start (cs : List Char) : Location.start.advanceOver cs =
    ⟨cs.count '\n' + 1, (cs.reverse.takeWhile (· != '\n')).length + 1,
      (String.ofList cs).utf8ByteSize⟩ := by
  induction cs using List.reverseRecOn with
  | nil => rfl
  | append_singleton cs c ih =>
    rw [Location.advanceOver_append, ih]
    by_cases hc : c = '\n'
    · have hbytes : '\n'.utf8Size = "\n".utf8ByteSize := rfl
      subst hc
      simp [Location.advanceOver, Location.advance, hbytes]
    · simp [Location.advanceOver, Location.advance, hc]

namespace Piece

/-- The text of a piece, and what is skipped after it. -/
def extent (p : Piece) : List Char := p.text ++ p.skipped

/-- A piece between two texts. -/
structure Placed (before : List Char) (p : Piece) (after : List Char) : Prop where
  location : p.location = Location.start.advanceOver before
  /-- Lines are counted by newlines, columns by characters, offsets by bytes. -/
  counted : p.location = ⟨before.count '\n' + 1,
    (before.reverse.takeWhile (· != '\n')).length + 1, (String.ofList before).utf8ByteSize⟩
  nonempty : p.text ≠ []
  /-- The text of the piece is what is read there. -/
  scanned : ∃ c cs, p.extent ++ after = c :: cs ∧ p.text.length = (Token.scan c cs).more + 1
  /-- A close tag stands for a semicolon, and the text up to the next open tag is skipped. -/
  closeTag : p.text = ['?', '>'] →
    p.token = .ok ⟨.symbol .semicolon, ";", p.location, none⟩ ∧
    Token.Inline p.skipped ∧ Token.AtCode after
  /-- Nothing is skipped elsewhere; the text is the lexeme, or the error quotes it. -/
  other : p.text ≠ ['?', '>'] → p.skipped = [] ∧
    match p.token with
    | .ok t => t.lexeme.toList = p.text ∧ t.location = p.location
    | .error e => e.location = p.location ∧
      e.cause.message = s!"unexpected character sequence '{String.ofList p.text}'"

/-- The first piece of a text that begins with code. -/
def first (here : Location) (c : Char) (cs : List Char) : Piece :=
  let s := Token.scan c cs
  let rest := cs.drop s.more
  ⟨s.reading, c :: cs.take s.more,
    rest.take (if s.reading = .closeTag then Token.inlineLength rest else 0), here⟩

/-- What follows the first piece. -/
def later (c : Char) (cs : List Char) : List Char :=
  let s := Token.scan c cs
  let rest := cs.drop s.more
  rest.drop (if s.reading = .closeTag then Token.inlineLength rest else 0)

theorem ofCode_cons (here : Location) (c : Char) (cs : List Char) : ofCode here (c :: cs) =
    first here c cs :: ofCode (here.advanceOver (first here c cs).extent) (later c cs) := by
  rw [ofCode, extent, Location.advanceOver_append]
  rfl

theorem extent_first (here : Location) (c : Char) (cs : List Char) :
    (first here c cs).extent ++ later c cs = c :: cs := by
  simp [extent, first, later, List.take_append_drop]

theorem later_length (c : Char) (cs : List Char) : (later c cs).length ≤ cs.length := by
  simp only [later, List.length_drop]
  omega

theorem first_placed (before : List Char) (c : Char) (cs : List Char) :
    (first (Location.start.advanceOver before) c cs).Placed before (later c cs) := by
  refine ⟨rfl, Location.advanceOver_start before, by simp [first],
    ⟨c, cs, extent_first _ c cs, ?_⟩, ?_, ?_⟩
  · have hfits := Token.scan_fits c cs
    simp only [first, List.length_cons, List.length_take]
    omega
  · intro htext
    obtain ⟨rfl, htake⟩ := List.cons.inj htext
    obtain ⟨rest, rfl⟩ : ∃ rest, cs = '>' :: rest := by
      have hsplit := List.take_append_drop (Token.scan '?' cs).more cs
      rw [htake] at hsplit
      exact ⟨_, hsplit.symm⟩
    have hscan : Token.scan '?' ('>' :: rest) = ⟨.closeTag, 1⟩ := rfl
    simp only [first, later, token, hscan]
    exact ⟨trivial, Token.inline_take rest, Token.atCode_drop rest⟩
  · intro htext
    have hclose : (Token.scan c cs).reading ≠ .closeTag := by
      rcases Token.scan_cases c cs with ⟨rest, rfl, rfl, hscan⟩ | h
      · exact absurd (by simp [first, hscan]) htext
      · exact h.notClose
    constructor
    · simp [first, hclose]
    · cases hreading : (Token.scan c cs).reading with
      | closeTag => exact absurd hreading hclose
      | unknown =>
        simp only [first, token, hreading]
        exact ⟨trivial, rfl⟩
      | _ => simp [first, token, hreading]

/-- The pieces of a text that begins with code, after other text. -/
theorem ofCode_placed (lead cs : List Char) :
    (ofCode (Location.start.advanceOver lead) cs).flatMap extent = cs ∧
    ∀ before p after, ofCode (Location.start.advanceOver lead) cs = before ++ p :: after →
      p.Placed (lead ++ before.flatMap extent) (after.flatMap extent) := by
  induction hn : cs.length using Nat.strong_induction_on generalizing lead cs with
  | _ n ih =>
    cases cs with
    | nil =>
      rw [ofCode]
      exact ⟨rfl, by simp⟩
    | cons c cs =>
      have hfirst := first_placed lead c cs
      have hextent := extent_first (Location.start.advanceOver lead) c cs
      have hshorter : (later c cs).length < n := by
        have := later_length c cs
        rw [List.length_cons] at hn
        omega
      rw [ofCode_cons]
      generalize first (Location.start.advanceOver lead) c cs = f at hfirst hextent ⊢
      obtain ⟨htail, hplaced⟩ := ih _ hshorter (lead ++ f.extent) (later c cs) rfl
      rw [Location.advanceOver_append] at htail hplaced
      constructor
      · rw [List.flatMap_cons, htail, hextent]
      · intro before p after hsplit
        cases before with
        | nil =>
          obtain ⟨rfl, rfl⟩ := List.cons.inj hsplit
          rw [htail]
          simpa using hfirst
        | cons q before =>
          obtain ⟨rfl, hrest⟩ := List.cons.inj hsplit
          simpa using hplaced before p after hrest

/-- A source is the text before the first open tag and then, for each piece, its text and, after a
close tag, the text up to the next open tag. Each piece is placed by all the text before it. -/
theorem ofSource_placed (source : String) : ∃ lead,
    source.toList = lead ++ (ofSource source).flatMap extent ∧
    Token.Inline lead ∧ Token.AtCode ((ofSource source).flatMap extent) ∧
    ∀ before p after, ofSource source = before ++ p :: after →
      p.Placed (lead ++ before.flatMap extent) (after.flatMap extent) := by
  have hpieces := ofCode_placed (source.toList.take (Token.inlineLength source.toList))
    (source.toList.drop (Token.inlineLength source.toList))
  refine ⟨source.toList.take (Token.inlineLength source.toList), ?_, Token.inline_take _, ?_, ?_⟩
  · rw [ofSource, hpieces.1, List.take_append_drop]
  · rw [ofSource, hpieces.1]
    exact Token.atCode_drop _
  · exact hpieces.2

namespace Sample

/-- Text around two stretches of code, with a string that is not closed. -/
def mixed : String := "é\n<?php $n = 'ü' // more ?> <i>é</i>\n<?= \"open"

end Sample

/- The close tag is the tenth of thirteen pieces. -/
theorem ofSource_placed_sample :
    (ofSource Sample.mixed).length = 13 ∧
    ∃ lead before p after, ofSource Sample.mixed = before ++ p :: after ∧
      p.text = ['?', '>'] ∧ p.skipped = " <i>é</i>\n".toList ∧ p.location = ⟨2, 24, 27⟩ ∧
      p.Placed (lead ++ before.flatMap extent) (after.flatMap extent) := by
  obtain ⟨lead, -, -, -, hplaced⟩ := ofSource_placed Sample.mixed
  have htenth : (ofSource Sample.mixed)[9]?.map (fun p => (p.text, p.skipped, p.location)) =
      some (['?', '>'], " <i>é</i>\n".toList, ⟨2, 24, 27⟩) := by decide +kernel
  obtain ⟨p, hp, heq⟩ := Option.map_eq_some_iff.mp htenth
  obtain ⟨htext, hskipped, hlocation⟩ : p.text = _ ∧ p.skipped = _ ∧ p.location = _ := by
    simpa using heq
  obtain ⟨hlen, rfl⟩ := List.getElem?_eq_some_iff.mp hp
  have hsplit : ofSource Sample.mixed = (ofSource Sample.mixed).take 9 ++
      (ofSource Sample.mixed)[9] :: (ofSource Sample.mixed).drop 10 := by
    rw [← List.drop_eq_getElem_cons hlen, List.take_append_drop]
  exact ⟨by decide +kernel, lead, _, _, _, hsplit, htext, hskipped, hlocation,
    hplaced _ _ _ hsplit⟩

end Piece

end ContractAudit
