import ContractAudit.Proofs.Lexemes
import ContractAudit.Throws.Doc

/-! What is read from a docblock. Main statement: the exceptions of a docblock are the names of its
tags, in order and each in its first spelling, and those of two docblocks in one text are those of
the first and then those of the second. -/
namespace ContractAudit.Throws

open Text

/-- A character of a class name. -/
def IsNameChar (c : Char) : Prop := isIdentChar c = true ∨ c = '\\'

namespace IsNameChar
variable {c : Char}

/- Class names are written in visible characters of ASCII. -/
theorem bounds (h : IsNameChar c) : 48 ≤ c.toNat ∧ c.toNat ≤ 122 := by
  rcases h with h | rfl
  · simp only [isIdentChar, isLetter, isDigit, Bool.or_eq_true, Bool.and_eq_true, decide_eq_true_eq,
      beq_iff_eq, Char.le_def, UInt32.le_iff_toNat_le] at h
    rcases h with ((h | h) | h) | rfl
    · change 97 ≤ c.toNat ∧ c.toNat ≤ 122 at h
      omega
    · change 65 ≤ c.toNat ∧ c.toNat ≤ 90 at h
      omega
    · change 48 ≤ c.toNat ∧ c.toNat ≤ 57 at h
      omega
    · decide
  · decide

theorem isBlank (h : IsNameChar c) : isBlank c = false := by
  have := h.bounds
  rw [Bool.eq_false_iff]
  intro hb
  simp only [Text.isBlank, Bool.or_eq_true, Bool.and_eq_true, decide_eq_true_eq, beq_iff_eq] at hb
  omega

theorem ne_bar (h : IsNameChar c) : c ≠ '|' := by
  rintro rfl
  have : ('|').toNat ≤ 122 := h.bounds.2
  simp at this

end IsNameChar

theorem mem_splitChars (sep : Char) {c : Char} {cs : List Char} (h : c ∈ cs) :
    c = sep ∨ ∃ piece ∈ splitChars sep cs, c ∈ piece := by
  induction cs with
  | nil => cases h
  | cons d cs ih =>
    by_cases hd : d = sep
    · rw [splitChars, if_pos hd]
      rcases List.mem_cons.mp h with rfl | h
      · exact .inl hd
      · rcases ih h with hc | ⟨piece, hpiece, hc⟩
        · exact .inl hc
        · exact .inr ⟨piece, List.mem_cons_of_mem _ hpiece, hc⟩
    · rw [splitChars, if_neg hd]
      cases hs : splitChars sep cs with
      | nil =>
        rw [hs] at ih
        rcases List.mem_cons.mp h with rfl | h
        · exact .inr ⟨[c], by simp, by simp⟩
        · rcases ih h with hc | ⟨piece, hpiece, _⟩
          · exact .inl hc
          · cases hpiece
      | cons piece pieces =>
        rw [hs] at ih
        rcases List.mem_cons.mp h with rfl | h
        · exact .inr ⟨c :: piece, by simp, by simp⟩
        · rcases ih h with hc | ⟨p, hp, hc⟩
          · exact .inl hc
          · rcases List.mem_cons.mp hp with rfl | hp
            · exact .inr ⟨d :: p, by simp, by simp [hc]⟩
            · exact .inr ⟨p, by simp [hp], hc⟩

theorem isNameChar_of_isClassName {word : List Char} (h : isClassName word = true) :
    ∀ c ∈ word, IsNameChar c := by
  -- the pieces between backslashes are identifiers
  have hbody {body : List Char} (hall : (splitChars '\\' body).all isIdentifier = true) :
      ∀ c ∈ body, IsNameChar c := by
    intro c hc
    rcases mem_splitChars '\\' hc with hc | ⟨piece, hpiece, hc⟩
    · exact .inr hc
    · have hident := List.all_eq_true.mp hall piece hpiece
      cases piece with
      | nil => cases hc
      | cons d ds =>
        rw [isIdentifier, Bool.and_eq_true, List.all_eq_true] at hident
        rcases List.mem_cons.mp hc with rfl | hc
        · exact .inl (Token.isIdentChar_of_isIdentStart hident.1)
        · exact .inl (hident.2 c hc)
  unfold isClassName at h
  dsimp only at h
  split at h
  · intro c hc
    rcases List.mem_cons.mp hc with rfl | hc
    · exact .inr rfl
    · exact hbody h c hc
  · exact hbody h

theorem ne_nil_of_isClassName {word : List Char} (h : isClassName word = true) : word ≠ [] := by
  rintro rfl
  cases h

theorem splitChars_of_notMem {sep : Char} {cs : List Char} (h : sep ∉ cs) :
    splitChars sep cs = [cs] := by
  induction cs with
  | nil => rfl
  | cons c cs ih =>
    obtain ⟨hc, hcs⟩ : sep ≠ c ∧ sep ∉ cs := by simpa using h
    rw [splitChars, if_neg hc.symm, ih hcs]

theorem splitChars_ne_nil (sep : Char) (cs : List Char) : splitChars sep cs ≠ [] := by
  cases cs with
  | nil => simp [splitChars]
  | cons c cs =>
    rw [splitChars]
    split
    · simp
    · split <;> simp

/- A separator keeps the pieces before it and those after it apart. -/
theorem splitChars_append_sep (sep : Char) (cs ds : List Char) :
    splitChars sep (cs ++ sep :: ds) = splitChars sep cs ++ splitChars sep ds := by
  induction cs with
  | nil => simp [splitChars]
  | cons c cs ih =>
    rw [List.cons_append, splitChars, splitChars, ih]
    split
    · rw [List.cons_append]
    · obtain ⟨w, ws, hsplit⟩ := List.exists_cons_of_ne_nil (splitChars_ne_nil sep cs)
      rw [hsplit, List.cons_append]
      rfl

theorem splitChars_append {sep : Char} {cs : List Char} (h : sep ∉ cs) (ds : List Char) :
    splitChars sep (cs ++ sep :: ds) = cs :: splitChars sep ds := by
  rw [splitChars_append_sep, splitChars_of_notMem h, List.singleton_append]

/- Pieces joined by a separator that none of them has are found again. -/
theorem splitChars_intercalate {sep : Char} {pieces : List (List Char)} (hne : pieces ≠ [])
    (h : ∀ piece ∈ pieces, sep ∉ piece) : splitChars sep ([sep].intercalate pieces) = pieces := by
  induction pieces with
  | nil => exact absurd rfl hne
  | cons piece pieces ih =>
    have hpiece : sep ∉ piece := h piece List.mem_cons_self
    cases pieces with
    | nil =>
      rw [List.intercalate_singleton]
      exact splitChars_of_notMem hpiece
    | cons next pieces =>
      have hrest : ∀ p ∈ next :: pieces, sep ∉ p := fun p hp => h p (List.mem_cons_of_mem _ hp)
      rw [List.intercalate_cons_cons, List.append_assoc, List.singleton_append,
        splitChars_append hpiece, ih (List.cons_ne_nil _ _) hrest]

/-- The characters between the beginning of a line and its content. -/
def isMark (c : Char) : Bool := c == '*' || isBlank c

/-- A line without the mark that opens the comment. -/
def unopened (line : List Char) : List Char :=
  ((after? ['/', '*', '*'] line).or (after? ['/', '*'] line)).getD line

theorem content_eq (line : List Char) :
    content line = (unopened (line.dropWhile isBlank)).dropWhile isMark := rfl

theorem unopened_of_ne {c : Char} (h : c ≠ '/') (cs : List Char) :
    unopened (c :: cs) = c :: cs := by
  simp [unopened, after?, h.symm]

/- A blank is no part of the mark, so what follows it makes no difference. -/
theorem unopened_append {line : List Char} (hne : line ≠ []) {b : Char} (hb : isBlank b = true)
    (more : List Char) : unopened (line ++ b :: more) = unopened line ++ b :: more := by
  have hstar : '*' ≠ b := by
    rintro rfl
    cases hb
  cases line with
  | nil => exact absurd rfl hne
  | cons c cs =>
    by_cases hc : c = '/'
    · subst hc
      rcases cs with _ | ⟨d, _ | ⟨e, es⟩⟩
      · simp [unopened, after?, hstar]
      · by_cases hd : d = '*'
        · subst hd
          simp [unopened, after?, hstar]
        · simp [unopened, after?, Ne.symm hd]
      · by_cases hd : d = '*'
        · subst hd
          by_cases he : e = '*'
          · subst he
            simp [unopened, after?]
          · simp [unopened, after?, Ne.symm he]
        · simp [unopened, after?, Ne.symm hd]
    · rw [List.cons_append, unopened_of_ne hc, unopened_of_ne hc, List.cons_append]

section
variable {line : List Char} {b : Char}

theorem content_blank (hb : isBlank b = true) (cs : List Char) :
    content (b :: cs) = content cs := by
  rw [content_eq, List.dropWhile_cons_of_pos hb, ← content_eq]

theorem content_star (cs : List Char) : content ('*' :: cs) = cs.dropWhile isMark := by
  have hblank : isBlank '*' = false := rfl
  rw [content_eq, List.dropWhile_cons_of_neg (by simp [hblank]), unopened_of_ne (by decide),
    List.dropWhile_cons_of_pos rfl]

/- The line has content itself, or nothing but marks. -/
theorem content_append (line : List Char) (hb : isBlank b = true) (more : List Char) :
    (content line ≠ [] ∧ content (line ++ b :: more) = content line ++ b :: more) ∨
      content line = [] ∧ (content (line ++ b :: more) = content more ∨
        content (line ++ b :: more) = more.dropWhile isMark) := by
  have hmark : isMark b = true := by rw [isMark, hb, Bool.or_true]
  by_cases hline : line.dropWhile isBlank = []
  · have hnone : content line = [] := by rw [content_eq, hline]; rfl
    refine .inr ⟨hnone, .inl ?_⟩
    rw [content_eq, List.dropWhile_append, hline, List.isEmpty_nil, if_pos rfl, ← content_eq,
      content_blank hb]
  · have happend : content (line ++ b :: more) =
        (unopened (line.dropWhile isBlank) ++ b :: more).dropWhile isMark := by
      rw [content_eq, List.dropWhile_append, if_neg (by simpa using hline),
        unopened_append hline hb]
    rw [happend, List.dropWhile_append, ← content_eq]
    by_cases hcontent : content line = []
    · rw [hcontent, List.isEmpty_nil, if_pos rfl, List.dropWhile_cons_of_pos hmark]
      exact .inr ⟨rfl, .inr rfl⟩
    · rw [if_neg (by simpa using hcontent)]
      exact .inl ⟨hcontent, rfl⟩

end

/-- The content is the tag with a blank or nothing after it. -/
def Tagged (cs : List Char) : Prop := ∃ rest, cs = tag ++ rest ∧ rest.head?.all isBlank = true

theorem after?_append (word rest : List Char) : after? word (word ++ rest) = some rest := by
  rw [after?, if_pos (List.isPrefixOf_iff_prefix.mpr (List.prefix_append word rest)),
    List.drop_left]

theorem lineNames_of_not_tagged {line : List Char} (h : ¬ Tagged (content line)) :
    lineNames line = [] := by
  have hword : taggedWord? line = none := by
    unfold taggedWord?
    split
    · next rest hrest =>
      unfold after? at hrest
      split at hrest
      · next hprefix =>
        obtain ⟨more, hmore⟩ := List.isPrefixOf_iff_prefix.mp hprefix
        rw [← hmore, List.drop_left, Option.some.injEq] at hrest
        subst hrest
        refine if_neg fun hcond => h ⟨more, hmore.symm, ?_⟩
        exact (Bool.and_eq_true_iff.mp hcond).1
      · cases hrest
    · rfl
  rw [lineNames, hword]

section
variable {cs : List Char} {b : Char}

theorem notMem_tag (hb : isBlank b = true) : b ∉ tag := by
  have hall : tag.all (!isBlank ·) = true := by decide
  intro hmem
  simpa [hb] using List.all_eq_true.mp hall b hmem

theorem Tagged.append (h : Tagged cs) (hb : isBlank b = true) (more : List Char) :
    Tagged (cs ++ b :: more) := by
  obtain ⟨rest, rfl, hrest⟩ := h
  refine ⟨rest ++ b :: more, List.append_assoc .., ?_⟩
  cases rest with
  | nil => simpa using hb
  | cons c rest => simpa using hrest

theorem Tagged.of_append (hb : isBlank b = true) {more : List Char}
    (h : Tagged (cs ++ b :: more)) : Tagged cs := by
  obtain ⟨rest, heq, hrest⟩ := h
  rcases List.append_eq_append_iff.mp heq with ⟨part, htag, hpart⟩ | ⟨part, hcs, hpart⟩
  · cases part with
    | nil => exact ⟨[], by rw [htag, List.append_nil, List.append_nil], rfl⟩
    | cons c part =>
      rw [List.cons_append, List.cons.injEq] at hpart
      exact absurd (by rw [htag, hpart.1]; simp) (notMem_tag hb)
  · refine ⟨part, hcs, ?_⟩
    cases part with
    | nil => rfl
    | cons c part =>
      rw [hpart] at hrest
      simpa using hrest

end

section
variable {line : List Char} {b : Char}

theorem not_tagged_closed (h : ¬ Tagged (content line)) (hb : isBlank b = true) :
    ¬ Tagged (content (line ++ [b, '*', '/'])) := by
  have hslash : ¬ Tagged ['/'] := by
    rintro ⟨rest, heq, -⟩
    cases heq
  intro htagged
  rcases content_append line hb ['*', '/'] with ⟨_, heq⟩ | ⟨_, heq | heq⟩
  · rw [heq] at htagged
    exact h (htagged.of_append hb)
  · rw [heq] at htagged
    exact hslash htagged
  · rw [heq] at htagged
    exact hslash htagged

theorem Tagged.content_concat (h : Tagged (content line)) (hb : isBlank b = true) :
    Tagged (content (line ++ [b])) := by
  rcases content_append line hb [] with ⟨_, heq⟩ | ⟨hnil, _⟩
  · rw [heq]
    exact h.append hb []
  · obtain ⟨rest, heq, -⟩ := h
    rw [hnil] at heq
    cases heq

end

/-- The line of a tag: marks, the tag, blanks, the names with bars between them, and perhaps a blank
and a description. -/
structure TagLine where
  lead : List Char
  gap : List Char
  names : List String
  rest : List Char
  lead_marks : ∀ c ∈ lead, isMark c = true
  gap_ne : gap ≠ []
  gap_blank : ∀ c ∈ gap, isBlank c = true
  names_ne : names ≠ []
  names_valid : ∀ n ∈ names, isClassName n.toList = true
  rest_apart : rest.head?.all isBlank = true
  unbroken : '\n' ∉ lead ++ gap ++ rest

/-- What opens the first line of a docblock. -/
def opener : Bool → List Char
  | true => ['/', '*', '*']
  | false => []

namespace TagLine

def word (t : TagLine) : List Char := ['|'].intercalate (t.names.map String.toList)

def chars (t : TagLine) : List Char := t.lead ++ (tag ++ (t.gap ++ (t.word ++ t.rest)))

theorem splitChars_word (t : TagLine) : splitChars '|' t.word = t.names.map String.toList := by
  refine splitChars_intercalate (by simpa using t.names_ne) ?_
  intro piece hpiece hbar
  obtain ⟨n, hn, rfl⟩ := List.mem_map.mp hpiece
  exact (isNameChar_of_isClassName (t.names_valid n hn) _ hbar).ne_bar rfl

theorem isBlank_word (t : TagLine) : ∀ c ∈ t.word, isBlank c = false := by
  intro c hc
  rcases mem_splitChars '|' hc with rfl | ⟨piece, hpiece, hc⟩
  · rfl
  · rw [splitChars_word] at hpiece
    obtain ⟨n, hn, rfl⟩ := List.mem_map.mp hpiece
    exact (isNameChar_of_isClassName (t.names_valid n hn) c hc).isBlank

theorem word_ne (t : TagLine) : t.word ≠ [] := by
  intro hnil
  have hpieces := t.splitChars_word
  rw [hnil] at hpieces
  have hmem : [] ∈ t.names.map String.toList := by simp [← hpieces, splitChars]
  obtain ⟨n, hn, hempty⟩ := List.mem_map.mp hmem
  exact ne_nil_of_isClassName (t.names_valid n hn) hempty

theorem firstWord_eq (t : TagLine) {rest : List Char} (h : rest.head?.all isBlank = true) :
    firstWord (t.gap ++ (t.word ++ rest)) = t.word := by
  obtain ⟨c, cs, hword⟩ := List.exists_cons_of_ne_nil t.word_ne
  have hc : isBlank c = false := t.isBlank_word c (by simp [hword])
  have hdrop : (t.word ++ rest).dropWhile isBlank = t.word ++ rest := by
    rw [hword, List.cons_append, List.dropWhile_cons_of_neg (by simp [hc])]
  have hrest : rest.takeWhile (!isBlank ·) = [] := by
    cases rest with
    | nil => rfl
    | cons b rest =>
      have hb : isBlank b = true := by simpa using h
      rw [List.takeWhile_cons_of_neg (by simp [hb])]
  rw [firstWord, List.dropWhile_append_of_pos t.gap_blank, hdrop,
    List.takeWhile_append_of_pos (by simpa using t.isBlank_word), hrest, List.append_nil]

end TagLine

theorem content_opener (first : Bool) {lead : List Char} (h : ∀ c ∈ lead, isMark c = true)
    (cs : List Char) : content (opener first ++ (lead ++ '@' :: cs)) = '@' :: cs := by
  have hmarks {marks : List Char} (hall : ∀ c ∈ marks, isMark c = true) :
      (marks ++ '@' :: cs).dropWhile isMark = '@' :: cs := by
    rw [List.dropWhile_append_of_pos hall]
    rfl
  cases first with
  | true => exact hmarks h
  | false =>
    rw [opener, List.nil_append]
    induction lead with
    | nil => rfl
    | cons c lead ih =>
      have hlead : ∀ d ∈ lead, isMark d = true := fun d hd => h d (List.mem_cons_of_mem _ hd)
      rw [List.cons_append]
      by_cases hc : isBlank c = true
      · rw [content_blank hc, ih hlead]
      · have hstar : c = '*' := by simpa [isMark, hc] using h c List.mem_cons_self
        rw [hstar, content_star, hmarks hlead]

/- Whatever the description is. -/
theorem TagLine.lineNames_eq (t : TagLine) (first : Bool) {rest : List Char}
    (h : rest.head?.all isBlank = true) :
    lineNames (opener first ++ (t.lead ++ (tag ++ (t.gap ++ (t.word ++ rest))))) = t.names := by
  obtain ⟨b, gap, hgap⟩ := List.exists_cons_of_ne_nil t.gap_ne
  have hb : isBlank b = true := t.gap_blank b (by simp [hgap])
  have hcontent : content (opener first ++ (t.lead ++ (tag ++ (t.gap ++ (t.word ++ rest))))) =
      tag ++ (t.gap ++ (t.word ++ rest)) := content_opener first t.lead_marks _
  have hword : taggedWord? (opener first ++ (t.lead ++ (tag ++ (t.gap ++ (t.word ++ rest))))) =
      some t.word := by
    rw [taggedWord?, hcontent, after?_append]
    dsimp only
    rw [t.firstWord_eq h]
    refine if_pos ?_
    simp [hgap, hb, t.word_ne]
  have hvalid : (t.names.map String.toList).filter isClassName = t.names.map String.toList := by
    refine List.filter_eq_self.mpr fun piece hpiece => ?_
    obtain ⟨n, hn, rfl⟩ := List.mem_map.mp hpiece
    exact t.names_valid n hn
  rw [lineNames, hword]
  dsimp only
  rw [t.splitChars_word, hvalid, List.map_map]
  simp [Function.comp_def]

/-- A line of a docblock, the first of them after the opening mark. -/
inductive DocLine (first : Bool) where
  | tagged (t : TagLine)
  | plain (text : List Char) (unbroken : '\n' ∉ text)
      (untagged : ¬ Tagged (content (opener first ++ text)))

namespace DocLine
variable {first : Bool}

def chars : DocLine first → List Char
  | tagged t => t.chars
  | plain text _ _ => text

/-- The names of a line's tag. -/
def names : DocLine first → List String
  | tagged t => t.names
  | plain _ _ _ => []

theorem newline_notMem (l : DocLine first) : '\n' ∉ opener first ++ l.chars := by
  have hopener : '\n' ∉ opener first := by cases first <;> decide
  have hchars : '\n' ∉ l.chars := by
    cases l with
    | plain _ unbroken _ => exact unbroken
    | tagged t =>
      have hword : '\n' ∉ t.word := by
        intro hmem
        cases t.isBlank_word _ hmem
      have htag : '\n' ∉ tag := by decide
      have hothers := t.unbroken
      simp only [List.mem_append, not_or] at hothers
      simp [chars, TagLine.chars, hothers, hword, htag]
  simp [hopener, hchars]

theorem lineNames_self (l : DocLine first) : lineNames (opener first ++ l.chars) = l.names := by
  cases l with
  | tagged t => exact t.lineNames_eq first t.rest_apart
  | plain text _ untagged => exact lineNames_of_not_tagged untagged

/- A blank and the closing mark belong to the description, or are no tag. -/
theorem lineNames_closed (l : DocLine first) {b : Char} (hb : isBlank b = true) :
    lineNames (opener first ++ l.chars ++ [b, '*', '/']) = l.names := by
  cases l with
  | tagged t =>
    have hrest : (t.rest ++ [b, '*', '/']).head?.all isBlank = true := by
      have := t.rest_apart
      cases hr : t.rest with
      | nil => simpa using hb
      | cons c rest => simpa [hr] using this
    simpa [chars, TagLine.chars, names] using t.lineNames_eq first hrest
  | plain text _ untagged => exact lineNames_of_not_tagged (not_tagged_closed untagged hb)

/- A blank at the end belongs to the description, or makes no difference to a line without tag. -/
theorem lineNames_init (l : DocLine first) {line : List Char} {b : Char} (hb : isBlank b = true)
    (h : opener first ++ l.chars = line ++ [b]) : lineNames line = l.names := by
  cases l with
  | tagged t =>
    have hchars : opener first ++ (t.lead ++ (tag ++ (t.gap ++ (t.word ++ t.rest)))) =
        line ++ [b] := h
    rcases List.eq_nil_or_concat' t.rest with hnil | ⟨rest, c, hrest⟩
    · -- the last character is one of a name
      obtain ⟨word, c, hword⟩ := (List.eq_nil_or_concat' t.word).resolve_left t.word_ne
      have hc : isBlank c = false := t.isBlank_word c (by simp [hword])
      simp only [hnil, hword, List.append_nil, ← List.append_assoc] at hchars
      obtain ⟨-, hlast⟩ := List.append_inj' hchars rfl
      rw [List.singleton_inj.mp hlast, hb] at hc
      cases hc
    · have hapart : rest.head?.all isBlank = true := by
        have := t.rest_apart
        rw [hrest] at this
        cases rest with
        | nil => rfl
        | cons d rest => simpa using this
      simp only [hrest, ← List.append_assoc] at hchars
      obtain ⟨hline, -⟩ := List.append_inj' hchars rfl
      rw [← hline]
      simpa [names] using t.lineNames_eq first hapart
  | plain text _ untagged =>
    refine lineNames_of_not_tagged fun htagged => untagged ?_
    have heq : opener first ++ text = line ++ [b] := h
    rw [heq]
    exact htagged.content_concat hb

end DocLine

/- At most a carriage return goes with the newline. -/
theorem chomp_newline (line : List Char) : chomp (line ++ ['\n']) = line ∨
    line = chomp (line ++ ['\n']) ++ ['\r'] := by
  rcases List.eq_nil_or_concat' line with rfl | ⟨cs, c, rfl⟩
  · exact .inl rfl
  · by_cases hc : c = '\r'
    · subst hc
      right
      simp [chomp]
    · left
      have hreverse : (cs ++ [c] ++ ['\n']).reverse = '\n' :: c :: cs.reverse := by simp
      rw [chomp, hreverse]
      split
      · next r heq =>
        rw [List.cons.injEq, List.cons.injEq] at heq
        exact absurd heq.2.1 hc
      · next r _ heq =>
        rw [List.cons.injEq] at heq
        simp [← heq.2]
      · next _ hnone => exact absurd rfl (hnone _)

theorem DocLine.lineNames_chomp {first : Bool} (l : DocLine first) :
    lineNames (chomp (opener first ++ l.chars ++ ['\n'])) = l.names := by
  rcases chomp_newline (opener first ++ l.chars) with heq | heq
  · rw [heq]
    exact l.lineNames_self
  · exact l.lineNames_init rfl heq

inductive Break where
  | lf
  | crlf

def Break.chars : Break → List Char
  | lf => ['\n']
  | crlf => ['\r', '\n']

/-- What stands before the closing mark. -/
inductive Closing where
  | blank (c : Char) (isBlank : isBlank c = true) (inLine : c ≠ '\n')
  | newline (b : Break)

def Closing.chars : Closing → List Char
  | blank c _ _ => [c]
  | newline b => b.chars

/-- A comment before a declaration, line by line. -/
structure Docblock where
  first : DocLine true
  more : List (Break × DocLine false)
  closing : Closing

namespace Docblock

def charsOf (more : List (Break × DocLine false)) : List Char :=
  more.flatMap fun l => l.1.chars ++ l.2.chars

def chars (d : Docblock) : List Char :=
  opener true ++ d.first.chars ++ (charsOf d.more ++ (d.closing.chars ++ ['*', '/']))

def text (d : Docblock) : String := String.ofList d.chars

/-- The names of the tags, line by line. -/
def names (d : Docblock) : List String := d.first.names ++ d.more.flatMap fun l => l.2.names

end Docblock

theorem lines_newline {line : List Char} (h : '\n' ∉ line) (cs : List Char) :
    lines (line ++ '\n' :: cs) = chomp (line ++ ['\n']) :: lines cs := by
  rw [lines, Token.fullLines_line h, List.map_cons]
  rfl

theorem DocLine.lines_break {first : Bool} (l : DocLine first) (b : Break) (cs : List Char) :
    (lines (opener first ++ l.chars ++ (b.chars ++ cs))).flatMap lineNames =
      l.names ++ (lines cs).flatMap lineNames := by
  have hline := l.newline_notMem
  cases b with
  | lf =>
    rw [Break.chars, List.singleton_append, lines_newline hline, List.flatMap_cons,
      l.lineNames_chomp]
  | crlf =>
    have hreturn : '\n' ∉ opener first ++ l.chars ++ ['\r'] := by
      rw [List.mem_append, not_or]
      exact ⟨hline, by decide⟩
    have hchomp : chomp (opener first ++ l.chars ++ ['\r'] ++ ['\n']) =
        opener first ++ l.chars := by
      simp [chomp]
    have hsplit : opener first ++ l.chars ++ (Break.crlf.chars ++ cs) =
        opener first ++ l.chars ++ ['\r'] ++ '\n' :: cs := by simp [Break.chars]
    rw [hsplit, lines_newline hreturn, hchomp, List.flatMap_cons, l.lineNames_self]

/- What follows the closing mark, if anything, begins on a line of its own. -/
theorem lines_slash {line tail : List Char} (h : '\n' ∉ line)
    (htail : tail = [] ∨ ∃ cs, tail = '\n' :: cs) :
    lines (line ++ ['/'] ++ tail) = (line ++ ['/']) :: lines tail.tail := by
  have hline : '\n' ∉ line ++ ['/'] := by
    rw [List.mem_append, not_or]
    exact ⟨h, by decide⟩
  rcases htail with rfl | ⟨cs, rfl⟩
  · have hchomp : chomp (line ++ ['/']) = line ++ ['/'] := by simp [chomp]
    rw [List.append_nil, lines, Token.fullLines_last hline (by simp), List.map_singleton, hchomp]
    rfl
  · have hchomp : chomp (line ++ ['/'] ++ ['\n']) = line ++ ['/'] := by simp [chomp]
    rw [lines_newline hline, hchomp, List.tail_cons]

theorem DocLine.lines_closing {first : Bool} (l : DocLine first) (closing : Closing)
    {tail : List Char} (htail : tail = [] ∨ ∃ cs, tail = '\n' :: cs) :
    (lines (opener first ++ l.chars ++ (closing.chars ++ ('*' :: '/' :: tail)))).flatMap lineNames =
      l.names ++ (lines tail.tail).flatMap lineNames := by
  cases closing with
  | blank b hb hne =>
    have hline : '\n' ∉ opener first ++ l.chars ++ [b, '*'] := by
      rw [List.mem_append, not_or]
      exact ⟨l.newline_notMem, by simp [hne.symm]⟩
    have hsplit : opener first ++ l.chars ++
        ((Closing.blank b hb hne).chars ++ '*' :: '/' :: tail) =
          opener first ++ l.chars ++ [b, '*'] ++ ['/'] ++ tail := by simp [Closing.chars]
    have hclosed : opener first ++ l.chars ++ [b, '*'] ++ ['/'] =
        opener first ++ l.chars ++ [b, '*', '/'] := by simp
    rw [hsplit, lines_slash hline htail, List.flatMap_cons, hclosed, l.lineNames_closed hb]
  | newline b =>
    have hmark : '\n' ∉ ['*'] := by decide
    have hlast : lineNames (['*'] ++ ['/']) = [] := rfl
    have hsplit : '*' :: '/' :: tail = ['*'] ++ ['/'] ++ tail := rfl
    rw [Closing.chars, l.lines_break, hsplit, lines_slash hmark htail, List.flatMap_cons, hlast,
      List.nil_append]

/- The induction is on the lines after this one, and the next line takes its place. -/
theorem DocLine.lines_more {first : Bool} (l : DocLine first) (more : List (Break × DocLine false))
    (closing : Closing) {tail : List Char} (htail : tail = [] ∨ ∃ cs, tail = '\n' :: cs) :
    (lines (opener first ++ l.chars ++ (Docblock.charsOf more ++
      (closing.chars ++ '*' :: '/' :: tail)))).flatMap lineNames =
        l.names ++ (more.flatMap fun l => l.2.names) ++ (lines tail.tail).flatMap lineNames := by
  induction more generalizing first with
  | nil =>
    rw [Docblock.charsOf, List.flatMap_nil, List.nil_append, l.lines_closing closing htail,
      List.flatMap_nil, List.append_nil]
  | cons next more ih =>
    have hsplit : Docblock.charsOf (next :: more) ++ (closing.chars ++ '*' :: '/' :: tail) =
        next.1.chars ++ (opener false ++ next.2.chars ++ (Docblock.charsOf more ++
          (closing.chars ++ '*' :: '/' :: tail))) := by
      simp [Docblock.charsOf, opener]
    rw [hsplit, l.lines_break, ih next.2, List.flatMap_cons]
    simp only [List.append_assoc]

namespace Docblock

theorem written_text (d : Docblock) : written d.text = distinct same d.names := by
  rw [written, text, String.toList_ofList, chars, d.first.lines_more d.more d.closing (.inl rfl)]
  simp [names, lines, fullLines]

theorem written_joined (d d' : Docblock) :
    written (d.text ++ "\n" ++ d'.text) = distinct same (d.names ++ d'.names) := by
  have hchars : (d.text ++ "\n" ++ d'.text).toList =
      opener true ++ d.first.chars ++ (charsOf d.more ++
        (d.closing.chars ++ '*' :: '/' :: '\n' :: d'.chars)) := by
    simp [text, chars]
  rw [written, hchars, d.first.lines_more d.more d.closing (.inr ⟨_, rfl⟩), List.tail_cons, chars,
    d'.first.lines_more d'.more d'.closing (.inl rfl)]
  simp [names, lines, fullLines]

end Docblock

/-- Of names that are equal ignoring case the first one stays, in its place. -/
structure FirstSpellings (all kept : List String) : Prop where
  ordered : kept.Sublist all
  once : kept.Pairwise fun a b => same a b = false
  first : ∀ n, kept.find? (same n) = all.find? (same n)

theorem firstSpellings_distinct (names : List String) :
    FirstSpellings names (distinct same names) where
  ordered := by
    induction names with
    | nil => exact .slnil
    | cons n names ih => exact (List.filter_sublist.trans ih).cons_cons n
  once := distinct_pairwise same names
  first n := by
    apply find?_distinct
    intro a b hab
    exact same_congr_right hab n

/-- From a docblock the names of its tags are read, whatever its layout, and each in its first
spelling. From two docblocks with a newline between them what is read is what each gives, the first
one first, again each in its first spelling. -/
theorem written_recovers_tags :
    (∀ d : Docblock, written d.text = distinct same d.names ∧
      FirstSpellings d.names (written d.text)) ∧
    ∀ d d' : Docblock,
      written (d.text ++ "\n" ++ d'.text) = distinct same (written d.text ++ written d'.text) ∧
      FirstSpellings (written d.text ++ written d'.text) (written (d.text ++ "\n" ++ d'.text)) := by
  have hjoined (d d' : Docblock) :
      written (d.text ++ "\n" ++ d'.text) = distinct same (written d.text ++ written d'.text) := by
    rw [d.written_joined, d.written_text, d'.written_text,
      distinct_distinct_append same same_refl same_trans, distinct_append, distinct_append,
      distinct_eq_self (distinct_pairwise same d'.names)]
  refine ⟨fun d => ⟨d.written_text, ?_⟩, fun d d' => ⟨hjoined d d', ?_⟩⟩
  · rw [d.written_text]
    exact firstSpellings_distinct d.names
  · rw [hjoined]
    exact firstSpellings_distinct _

/- A docblock with a tag on its first line and another on its last, in two spellings. -/
namespace Sample

theorem unbroken_of_contains {cs : List Char} (h : cs.contains '\n' = false) : '\n' ∉ cs := by
  simpa using h

def opening : TagLine :=
  ⟨[' '], [' '], ["A", "\\B\\C"], " why".toList, List.all_eq_true.mp rfl, List.cons_ne_nil _ _,
    List.all_eq_true.mp rfl, List.cons_ne_nil _ _, List.all_eq_true.mp rfl, rfl,
    unbroken_of_contains rfl⟩

def ending : TagLine :=
  ⟨" ** ".toList, "\t ".toList, ["a", "D"], [], List.all_eq_true.mp rfl, List.cons_ne_nil _ _,
    List.all_eq_true.mp rfl, List.cons_ne_nil _ _, List.all_eq_true.mp rfl, rfl,
    unbroken_of_contains rfl⟩

theorem mention_untagged : ¬ Tagged (content (opener false ++ " * See @throws X".toList)) := by
  rintro ⟨rest, heq, -⟩
  cases heq

def twoTags : Docblock :=
  ⟨.tagged opening, [(.crlf, .plain " * See @throws X".toList (unbroken_of_contains rfl)
    mention_untagged), (.lf, .tagged ending)], .blank ' ' rfl (Char.ne_of_val_ne (by decide))⟩

end Sample

theorem written_recovers_tags_twoTags :
    Sample.twoTags.text = "/** @throws A|\\B\\C why\r\n * See @throws X\n ** @throws\t a|D */" ∧
    Sample.twoTags.names = ["A", "\\B\\C", "a", "D"] ∧
    written Sample.twoTags.text = ["A", "\\B\\C", "D"] ∧
    written (Sample.twoTags.text ++ "\n" ++ Sample.twoTags.text) = ["A", "\\B\\C", "D"] := by
  have htags := (written_recovers_tags.1 Sample.twoTags).1
  have hjoined := (written_recovers_tags.2 Sample.twoTags Sample.twoTags).1
  refine ⟨by decide +kernel, rfl, ?_, ?_⟩
  · rw [htags]
    decide +kernel
  · rw [hjoined, htags]
    decide +kernel

end ContractAudit.Throws
