import ContractAudit.Proofs.Pieces
import Mathlib.Computability.Language
import Mathlib.Data.List.Find
import Mathlib.Data.List.TakeWhile

/-! The texts of tokens, class by class. Main statement: before a space or at the end of the text,
each of them is read whole and as a token of its class. -/
namespace ContractAudit.Token

open Text
open scoped Computability

namespace Pattern

/-- The texts of one character from a class. -/
def one (p : Char → Bool) : Language Char := {cs | ∃ c, p c = true ∧ cs = [c]}

def oneOf (cs : List Char) : Language Char := one cs.contains

def optional (l : Language Char) : Language Char := 1 + l

def many1 (p : Char → Bool) : Language Char := one p * (one p)∗

def identifier : Language Char := one isIdentStart * (one isIdentChar)∗

/-- A name, perhaps with namespaces before it and a backslash before those. -/
def name : Language Char := optional (oneOf ['\\']) * identifier * (oneOf ['\\'] * identifier)∗

def var : Language Char := oneOf ['$'] * identifier

def digits : Language Char := one isDigit * (one isDigitOrGap)∗

def exponent : Language Char := oneOf ['e', 'E'] * optional (oneOf ['+', '-']) * many1 isDigit

/-- Digits after a zero and a letter for their base. -/
def based (letters : List Char) (p : Char → Bool) : Language Char :=
  oneOf ['0'] * oneOf letters * many1 p

def fraction : Language Char := oneOf ['.'] * digits * optional exponent

def number : Language Char :=
  digits + based ['x', 'X'] isHexOrGap + based ['b', 'B'] isBinaryOrGap +
    based ['o', 'O'] isOctalOrGap + digits * fraction + fraction + digits * exponent

/-- Text between two quotes. A quote or a backslash is written after a backslash. -/
def quoted (quote : Char) : Language Char :=
  oneOf [quote] * (one (fun c => c != quote && c != '\\') + oneOf ['\\'] * one (· != '\n'))∗ *
    oneOf [quote]

variable {p q : Char → Bool} {c : Char} {cs : List Char}

theorem mem_one : cs ∈ one p ↔ ∃ c, p c = true ∧ cs = [c] := Iff.rfl

theorem mem_oneOf {ds : List Char} : cs ∈ oneOf ds ↔ ∃ c ∈ ds, cs = [c] := by
  simp [oneOf, mem_one]

theorem singleton_mem_oneOf {ds : List Char} (h : c ∈ ds) : [c] ∈ oneOf ds :=
  mem_oneOf.mpr ⟨c, h, rfl⟩

theorem mem_optional {l : Language Char} : cs ∈ optional l ↔ cs = [] ∨ cs ∈ l := by
  rw [optional, Language.mem_add, Language.mem_one]

theorem mem_star_one : cs ∈ (one p)∗ ↔ ∀ c ∈ cs, p c = true := by
  constructor
  · rintro ⟨L, rfl, hL⟩ c hc
    obtain ⟨ds, hds, hc⟩ := List.mem_flatten.mp hc
    obtain ⟨d, hd, rfl⟩ := hL ds hds
    rwa [List.mem_singleton.mp hc]
  · intro h
    refine ⟨cs.map ([·]), by rw [← List.flatMap_def, List.flatMap_singleton'], fun ds hds => ?_⟩
    obtain ⟨c, hc, rfl⟩ := List.mem_map.mp hds
    exact ⟨c, h c hc, rfl⟩

theorem mem_first_mul_star :
    cs ∈ one p * (one q)∗ ↔ ∃ c ds, cs = c :: ds ∧ p c = true ∧ ∀ d ∈ ds, q d = true := by
  rw [Language.mem_mul]
  constructor
  · rintro ⟨_, ⟨c, hc, rfl⟩, ds, hds, rfl⟩
    exact ⟨c, ds, rfl, hc, mem_star_one.mp hds⟩
  · rintro ⟨c, ds, rfl, hc, hds⟩
    exact ⟨[c], ⟨c, hc, rfl⟩, ds, mem_star_one.mpr hds, rfl⟩

end Pattern

section
variable {c : Char}

theorem toNat_of_isDigit (h : isDigit c = true) : 48 ≤ c.toNat ∧ c.toNat ≤ 57 := by
  simpa [isDigit, Char.le_def, UInt32.le_iff_toNat_le] using h

theorem toNat_of_isIdentStart (h : isIdentStart c = true) :
    65 ≤ c.toNat ∧ c.toNat ≤ 90 ∨ 97 ≤ c.toNat ∧ c.toNat ≤ 122 ∨ c.toNat = 95 := by
  simp only [isIdentStart, isLetter, Bool.or_eq_true, Bool.and_eq_true, decide_eq_true_eq,
    Char.le_def, UInt32.le_iff_toNat_le, beq_iff_eq] at h
  rcases h with (h | h) | rfl
  · exact .inr (.inl h)
  · exact .inl h
  · exact .inr (.inr rfl)

theorem toNat_of_isSpace (h : isSpace c = true) : c.toNat ≤ 32 := by
  simp only [isSpace, Bool.or_eq_true, beq_iff_eq] at h
  rcases h with (((rfl | rfl) | rfl) | rfl) | rfl <;> decide

theorem isIdentChar_of_isIdentStart (h : isIdentStart c = true) : isIdentChar c = true := by
  simp only [isIdentStart, isIdentChar, Bool.or_eq_true] at h ⊢
  exact h.imp_left .inl

end

/-- A space is next, or the end. -/
def AtGap (cs : List Char) : Prop := ∀ c ∈ cs.head?, c = ' '

/-- The text is read whole as a token of this kind, if a gap follows. -/
def ReadsAs (kind : TokenKind) (lexeme : List Char) : Prop :=
  ∃ c cs, lexeme = c :: cs ∧ isSpace c = false ∧
    ∀ rest, AtGap rest → scan c (cs ++ rest) = ⟨.token kind, cs.length⟩

section
variable {p : Char → Bool} {c : Char} {cs rest : List Char}

theorem AtGap.stops (h : AtGap rest) (hp : p ' ' = false) : ∀ c ∈ rest.head?, p c = false := by
  intro c hc
  rw [h c hc, hp]

theorem dropWhile_append (hcs : ∀ c ∈ cs, p c = true) (hrest : ∀ c ∈ rest.head?, p c = false) :
    (cs ++ rest).dropWhile p = rest := by
  rw [List.dropWhile_append_of_pos hcs]
  cases rest with
  | nil => rfl
  | cons c cs => simp [hrest c rfl]

theorem takeWhile_append (hcs : ∀ c ∈ cs, p c = true) (hrest : ∀ c ∈ rest.head?, p c = false) :
    (cs ++ rest).takeWhile p = cs := by
  rw [List.takeWhile_append_of_pos hcs]
  cases rest with
  | nil => simp
  | cons c cs => simp [hrest c rfl]

theorem runLength_append (hcs : ∀ c ∈ cs, p c = true) (hrest : ∀ c ∈ rest.head?, p c = false) :
    runLength p (cs ++ rest) = cs.length := by
  rw [runLength, takeWhile_append hcs hrest]

end

section
variable {c : Char} {cs ds rest : List Char}

theorem nameLength_cons (h : isIdentChar c = true) (cs : List Char) :
    nameLength (c :: cs) = nameLength cs + 1 := by
  cases cs <;> simp [nameLength, h]

theorem nameLength_chars (h : ∀ c ∈ cs, isIdentChar c = true) (ds : List Char) :
    nameLength (cs ++ ds) = cs.length + nameLength ds := by
  induction cs with
  | nil => simp
  | cons c cs ih =>
    rw [List.cons_append, nameLength_cons (h c (by simp)), ih fun d hd => h d (by simp [hd])]
    simp only [List.length_cons]
    omega

theorem nameLength_gap (h : AtGap rest) : nameLength rest = 0 := by
  cases rest with
  | nil => rfl
  | cons c cs =>
    rw [h c rfl]
    cases cs <;> rfl

/- A backslash and an identifier go on with a name. -/
theorem nameLength_segments {L : List (List Char)}
    (hL : ∀ ds ∈ L, ds ∈ Pattern.oneOf ['\\'] * Pattern.identifier) (hrest : AtGap rest) :
    nameLength (L.flatten ++ rest) = L.flatten.length := by
  induction L with
  | nil => exact nameLength_gap hrest
  | cons ds L ih =>
    obtain ⟨_, hslash, _, hident, rfl⟩ := hL ds (by simp)
    obtain ⟨b, hb, rfl⟩ := Pattern.mem_oneOf.mp hslash
    obtain rfl := List.mem_singleton.mp hb
    obtain ⟨d, es, rfl, hd, hes⟩ := Pattern.mem_first_mul_star.mp hident
    have hstep : nameLength ('\\' :: d :: (es ++ (L.flatten ++ rest))) =
        nameLength (es ++ (L.flatten ++ rest)) + 2 := by
      rw [nameLength, if_neg (by decide), if_pos (by simpa using hd)]
    simp only [List.flatten_cons, List.append_assoc, List.cons_append, List.nil_append, hstep,
      nameLength_chars hes, ih fun es hes => hL es (by simp [hes]), List.length_append,
      List.length_cons]

/- What follows the first character of a name. -/
theorem nameLength_name (hcs : ∀ c ∈ cs, isIdentChar c = true)
    (hds : ds ∈ (Pattern.oneOf ['\\'] * Pattern.identifier)∗) (hrest : AtGap rest) :
    nameLength (cs ++ ds ++ rest) = (cs ++ ds).length := by
  obtain ⟨L, rfl, hL⟩ := Language.mem_kstar.mp hds
  rw [List.append_assoc, nameLength_chars hcs, nameLength_segments hL hrest, List.length_append]

theorem isSpace_of_isIdentStart (h : isIdentStart c = true) : isSpace c = false := by
  by_contra hspace
  have := toNat_of_isSpace (by simpa using hspace)
  have := toNat_of_isIdentStart h
  omega

theorem scan_identStart (h : isIdentStart c = true) (cs : List Char) :
    scan c cs = scanWord c cs := by
  simp [scan, isSpace_of_isIdentStart h, h]

/- A word is a keyword or a name, going by the list of keywords. -/
theorem readsAs_word (hc : isIdentStart c = true)
    (hlength : ∀ rest, AtGap rest → nameLength (cs ++ rest) = cs.length) :
    ReadsAs ((Keyword.ofText? (String.ofList (c :: cs))).elim .name .keyword) (c :: cs) := by
  refine ⟨c, cs, rfl, isSpace_of_isIdentStart hc, fun rest hrest => ?_⟩
  have hnext : rest.head? ≠ some '\\' := by
    intro heq
    cases hrest _ heq
  rw [scan_identStart hc]
  simp only [scanWord, hlength rest hrest, List.drop_left, List.take_left, if_neg hnext]
  cases Keyword.ofText? (String.ofList (c :: cs)) <;> rfl

theorem readsAs_name {x : String} (h : x.toList ∈ Pattern.name)
    (hkeyword : Keyword.ofText? x = none) : ReadsAs .name x.toList := by
  obtain ⟨_, ⟨lead, hlead, _, hident, rfl⟩, ds, hds, hx⟩ := h
  obtain ⟨c, cs, rfl, hc, hcs⟩ := Pattern.mem_first_mul_star.mp hident
  rcases Pattern.mem_optional.mp hlead with rfl | hslash
  · have hword := readsAs_word hc fun rest hrest => nameLength_name hcs hds hrest
    have hlist : x = String.ofList (c :: (cs ++ ds)) := by
      rw [← String.ofList_toList (s := x), ← hx]
      rfl
    rw [← hlist, hkeyword] at hword
    rwa [hlist, String.toList_ofList]
  · obtain ⟨b, hb, rfl⟩ := Pattern.mem_oneOf.mp hslash
    obtain rfl := List.mem_singleton.mp hb
    rw [← hx]
    refine ⟨'\\', c :: cs ++ ds, rfl, rfl, fun rest hrest => ?_⟩
    have hall : ∀ d ∈ c :: cs, isIdentChar d = true := by
      simpa using ⟨isIdentChar_of_isIdentStart hc, hcs⟩
    have hscan : scan '\\' (c :: cs ++ ds ++ rest) = scanBackslash (c :: cs ++ ds ++ rest) := rfl
    rw [hscan, scanBackslash, if_pos (by simpa using hc), nameLength_name hall hds hrest]

theorem readsAs_var (h : cs ∈ Pattern.var) : ReadsAs .var cs := by
  obtain ⟨_, hdollar, _, hident, rfl⟩ := h
  obtain ⟨b, hb, rfl⟩ := Pattern.mem_oneOf.mp hdollar
  obtain rfl := List.mem_singleton.mp hb
  obtain ⟨c, cs, rfl, hc, hcs⟩ := Pattern.mem_first_mul_star.mp hident
  refine ⟨'$', c :: cs, rfl, rfl, fun rest hrest => ?_⟩
  have hall : ∀ d ∈ c :: cs, isIdentChar d = true := by
    simpa using ⟨isIdentChar_of_isIdentStart hc, hcs⟩
  have hscan : scan '$' (c :: cs ++ rest) = scanDollar (c :: cs ++ rest) := rfl
  rw [hscan, scanDollar, if_pos (by simpa using hc), runLength_append hall (hrest.stops rfl)]

end

section
variable {c : Char} {k : Keyword}

theorem ofText?_text (k : Keyword) : Keyword.all.find? (·.text == k.text) = some k := by
  cases k <;> decide +kernel

theorem isIdentStart_text (k : Keyword) : k.text.toList.all isIdentStart = true := by
  cases k <;> decide +kernel

theorem isIdentStart_of_toLower (h : isIdentStart c.toLower = true) : isIdentStart c = true := by
  unfold Char.toLower at h
  split at h
  · next hcap =>
    have hletter : isLetter c = true := by
      simp only [isLetter, Bool.or_eq_true, Bool.and_eq_true, decide_eq_true_eq]
      exact .inr hcap
    rw [isIdentStart, hletter, Bool.true_or]
  · exact h

theorem readsAs_keyword {x : String} (h : lower x = k.text) : ReadsAs (.keyword k) x.toList := by
  have hlower : x.toList.map Char.toLower = k.text.toList := by
    rw [← h, lower, String.toList_ofList]
  have hstart : ∀ c ∈ x.toList, isIdentStart c = true := by
    intro c hc
    refine isIdentStart_of_toLower (List.all_eq_true.mp (isIdentStart_text k) _ ?_)
    rw [← hlower]
    exact List.mem_map_of_mem hc
  have hfound : Keyword.ofText? x = some k := by
    rw [Keyword.ofText?, h]
    exact ofText?_text k
  cases hx : x.toList with
  | nil =>
    rw [hx] at hlower
    cases k <;> exact absurd hlower (by decide +kernel)
  | cons c cs =>
    rw [hx] at hstart
    have hchars : ∀ d ∈ cs, isIdentChar d = true := fun d hd =>
      isIdentChar_of_isIdentStart (hstart d (List.mem_cons_of_mem _ hd))
    have hword := readsAs_word (hstart c List.mem_cons_self) fun rest hrest => by
      rw [nameLength_chars hchars, nameLength_gap hrest, Nat.add_zero]
    rw [← hx, String.ofList_toList, hfound] at hword
    rwa [← hx]

end

section
variable {c : Char} {p : Char → Bool} {cs ds tail rest : List Char}

theorem fractionLength_of_head (h : cs.head? ≠ some '.') : fractionLength cs = 0 := by
  unfold fractionLength
  split
  · next q d cs =>
    have hq : q ≠ '.' := by simpa using h
    simp [hq]
  · rfl

theorem exponentLength_gap (h : AtGap rest) : exponentLength rest = 0 := by
  unfold exponentLength
  split
  · next e s cs =>
    rw [h e rfl]
    rfl
  · rfl

theorem exponentLength_append (h : cs ∈ Pattern.exponent) (hrest : AtGap rest) :
    exponentLength (cs ++ rest) = cs.length := by
  obtain ⟨_, ⟨_, hletter, sign, hsign, rfl⟩, _, hdigits, rfl⟩ := h
  obtain ⟨e, he, rfl⟩ := Pattern.mem_oneOf.mp hletter
  obtain ⟨d, ds, rfl, hd, hds⟩ := Pattern.mem_first_mul_star.mp hdigits
  have he' : e.toLower = 'e' := by
    rcases List.mem_pair.mp he with rfl | rfl <;> rfl
  rcases Pattern.mem_optional.mp hsign with rfl | hsign
  · have hnot : ¬ (d = '+' ∨ d = '-') := by
      rintro (rfl | rfl) <;> cases hd
    simp [exponentLength, he', hnot, hd, runLength_append hds (hrest.stops rfl)]
  · obtain ⟨s, hs, rfl⟩ := Pattern.mem_oneOf.mp hsign
    have hall : ∀ x ∈ d :: ds, isDigit x = true := by simpa using ⟨hd, hds⟩
    have hrun := runLength_append hall (hrest.stops rfl)
    rw [List.cons_append] at hrun
    simp [exponentLength, he', List.mem_pair.mp hs, hrun]

theorem exponent_head (h : cs ∈ Pattern.exponent) : ∃ e es, cs = e :: es ∧ e ∈ ['e', 'E'] := by
  obtain ⟨_, ⟨_, hletter, sign, -, rfl⟩, ds, -, rfl⟩ := h
  obtain ⟨e, he, rfl⟩ := Pattern.mem_oneOf.mp hletter
  exact ⟨e, _, rfl, he⟩

theorem fractionLength_append (h : cs ∈ Pattern.fraction) (hrest : AtGap rest) :
    fractionLength (cs ++ rest) = cs.length := by
  obtain ⟨_, ⟨_, hpoint, _, hdigits, rfl⟩, ex, hex, rfl⟩ := h
  obtain ⟨b, hb, rfl⟩ := Pattern.mem_oneOf.mp hpoint
  obtain rfl := List.mem_singleton.mp hb
  obtain ⟨d, ds, rfl, hd, hds⟩ := Pattern.mem_first_mul_star.mp hdigits
  have hexponent : exponentLength (ex ++ rest) = ex.length := by
    rcases Pattern.mem_optional.mp hex with rfl | hex
    · exact exponentLength_gap hrest
    · exact exponentLength_append hex hrest
  have hstop : ∀ c ∈ (ex ++ rest).head?, isDigitOrGap c = false := by
    rcases Pattern.mem_optional.mp hex with rfl | hex
    · exact hrest.stops rfl
    · obtain ⟨e, es, rfl, he⟩ := exponent_head hex
      rintro _ ⟨⟩
      rcases List.mem_pair.mp he with rfl | rfl <;> rfl
  have hrun := runLength_append hds hstop
  simp [fractionLength, hd, hrun, hexponent]
  omega

theorem fraction_head (h : cs ∈ Pattern.fraction) :
    ∃ d ds, cs = '.' :: d :: ds ∧ isDigit d = true := by
  obtain ⟨_, ⟨_, hpoint, _, hdigits, rfl⟩, ex, -, rfl⟩ := h
  obtain ⟨b, hb, rfl⟩ := Pattern.mem_oneOf.mp hpoint
  obtain rfl := List.mem_singleton.mp hb
  obtain ⟨d, ds, rfl, hd, -⟩ := Pattern.mem_first_mul_star.mp hdigits
  exact ⟨d, _, rfl, hd⟩

theorem isDigit_classes (h : isDigit c = true) : isSpace c = false ∧ isIdentStart c = false := by
  have hdigit := toNat_of_isDigit h
  constructor
  · by_contra hspace
    have := toNat_of_isSpace (by simpa using hspace)
    omega
  · by_contra hstart
    have := toNat_of_isIdentStart (by simpa using hstart)
    omega

theorem scan_isDigit (h : isDigit c = true) (cs : List Char) :
    scan c cs = ⟨.token .number, numberLength c cs⟩ := by
  simp [scan, isDigit_classes h, h]

theorem radixDigits_of_isDigitOrGap (h : isDigitOrGap c = true) : radixDigits c = none := by
  simp only [isDigitOrGap, Bool.or_eq_true, beq_iff_eq] at h
  rcases h with h | rfl
  · -- the letters of the bases begin identifiers, and a digit begins none
    have hstart : isIdentStart c.toLower ≠ true :=
      mt isIdentStart_of_toLower (by simp [isDigit_classes h])
    unfold radixDigits
    split
    · next hx => exact absurd (by rw [hx]; rfl) hstart
    · next ho => exact absurd (by rw [ho]; rfl) hstart
    · next hb => exact absurd (by rw [hb]; rfl) hstart
    · rfl
  · rfl

theorem radixLength_of_head (h : ∀ c ∈ cs.head?, radixDigits c = none) : radixLength cs = 0 := by
  cases cs with
  | nil => rfl
  | cons c cs => simp [radixLength, h c rfl]

/- A decimal number goes on with digits, and then with a fraction or an exponent. -/
theorem numberLength_decimal (hds : ∀ d ∈ ds, isDigitOrGap d = true)
    (htail : ∀ c ∈ tail.head?, isDigitOrGap c = false ∧ radixDigits c = none) :
    numberLength c (ds ++ tail) =
      ds.length + if fractionLength tail = 0 then exponentLength tail else fractionLength tail := by
  have hradix : radixLength (ds ++ tail) = 0 := by
    refine radixLength_of_head fun d hd => ?_
    cases ds with
    | nil => exact (htail d hd).2
    | cons e es =>
      obtain rfl : e = d := by simpa using hd
      exact radixDigits_of_isDigitOrGap (hds e List.mem_cons_self)
  have hrun : runLength isDigitOrGap (ds ++ tail) = ds.length :=
    runLength_append hds fun c hc => (htail c hc).1
  simp only [numberLength, hradix, hrun, List.drop_left]
  by_cases hfraction : fractionLength tail = 0 <;> simp [hfraction]

theorem numberLength_based {letter : Char} (hletter : radixDigits letter = some p)
    (hcs : cs ∈ Pattern.many1 p) (hrest : ∀ c ∈ rest.head?, p c = false) :
    numberLength '0' (letter :: (cs ++ rest)) = cs.length + 1 := by
  obtain ⟨d, ds, rfl, hd, hds⟩ := Pattern.mem_first_mul_star.mp hcs
  have hall : ∀ x ∈ d :: ds, p x = true := by simpa using ⟨hd, hds⟩
  have hrun := runLength_append hall hrest
  have hradix : radixLength (letter :: (d :: ds ++ rest)) = (d :: ds).length + 1 := by
    simp only [radixLength, hletter, hrun]
    simp
  rw [numberLength, hradix]
  simp

theorem readsAs_decimal (h : cs ∈ Pattern.digits)
    (htail : ∀ c ∈ tail.head?, isDigitOrGap c = false ∧ radixDigits c = none)
    (hlength : ∀ rest, AtGap rest → (if fractionLength (tail ++ rest) = 0 then
      exponentLength (tail ++ rest) else fractionLength (tail ++ rest)) = tail.length) :
    ReadsAs .number (cs ++ tail) := by
  obtain ⟨d, ds, rfl, hd, hds⟩ := Pattern.mem_first_mul_star.mp h
  refine ⟨d, ds ++ tail, rfl, (isDigit_classes hd).1, fun rest hrest => ?_⟩
  have hnext : ∀ c ∈ (tail ++ rest).head?, isDigitOrGap c = false ∧ radixDigits c = none := by
    cases tail with
    | nil =>
      intro c hc
      rw [hrest c hc]
      exact ⟨rfl, rfl⟩
    | cons c cs => exact htail
  rw [scan_isDigit hd, List.append_assoc, numberLength_decimal hds hnext, hlength rest hrest,
    List.length_append]

theorem readsAs_based {a b : Char} (h : cs ∈ Pattern.based [a, b] p)
    (ha : radixDigits a = some p) (hb : radixDigits b = some p) (hp : p ' ' = false) :
    ReadsAs .number cs := by
  obtain ⟨_, ⟨_, hzero, _, hletter, rfl⟩, ds, hds, rfl⟩ := h
  obtain ⟨z, hz, rfl⟩ := Pattern.mem_oneOf.mp hzero
  obtain rfl := List.mem_singleton.mp hz
  obtain ⟨letter, hmem, rfl⟩ := Pattern.mem_oneOf.mp hletter
  have hradix : radixDigits letter = some p := by
    rcases List.mem_pair.mp hmem with rfl | rfl
    · exact ha
    · exact hb
  refine ⟨'0', letter :: ds, rfl, rfl, fun rest hrest => ?_⟩
  rw [scan_isDigit rfl, List.cons_append, numberLength_based hradix hds (hrest.stops hp),
    List.length_cons]

theorem readsAs_fraction (h : cs ∈ Pattern.fraction) : ReadsAs .number cs := by
  obtain ⟨d, ds, rfl, hd⟩ := fraction_head h
  refine ⟨'.', d :: ds, rfl, rfl, fun rest hrest => ?_⟩
  have hlength := fractionLength_append h hrest
  have hscan : scan '.' (d :: ds ++ rest) = scanDot (d :: ds ++ rest) := rfl
  rw [List.cons_append] at hlength
  rw [hscan, scanDot, if_pos (by simpa using hd), hlength]
  rfl

theorem readsAs_number (h : cs ∈ Pattern.number) : ReadsAs .number cs := by
  rcases h with (((((h | h) | h) | h) | h) | h) | h
  · rw [← List.append_nil cs]
    refine readsAs_decimal h nofun fun rest hrest => ?_
    have hpoint : rest.head? ≠ some '.' := by
      intro heq
      cases hrest _ heq
    rw [List.nil_append, if_pos (fractionLength_of_head hpoint), exponentLength_gap hrest]
    rfl
  · exact readsAs_based h rfl rfl rfl
  · exact readsAs_based h rfl rfl rfl
  · exact readsAs_based h rfl rfl rfl
  · obtain ⟨ds, hds, fr, hfr, rfl⟩ := h
    obtain ⟨d, es, heq, -⟩ := fraction_head hfr
    refine readsAs_decimal hds ?_ fun rest hrest => ?_
    · rw [heq]
      rintro _ ⟨⟩
      exact ⟨rfl, rfl⟩
    · rw [fractionLength_append hfr hrest, if_neg (by simp [heq])]
  · exact readsAs_fraction h
  · obtain ⟨ds, hds, ex, hex, rfl⟩ := h
    obtain ⟨e, es, heq, he⟩ := exponent_head hex
    refine readsAs_decimal hds ?_ fun rest hrest => ?_
    · rw [heq]
      rintro _ ⟨⟩
      rcases List.mem_pair.mp he with rfl | rfl <;> exact ⟨rfl, rfl⟩
    · have hpoint : (ex ++ rest).head? ≠ some '.' := by
        rcases List.mem_pair.mp he with rfl | rfl <;> simp [heq]
      rw [if_pos (fractionLength_of_head hpoint), exponentLength_append hex hrest]

end

section
variable {c d quote : Char} {cs rest : List Char}

theorem quotedLength_close (quote : Char) (cs : List Char) :
    quotedLength quote (quote :: cs) = (1, true) := by
  cases cs <;> simp [quotedLength]

theorem quotedLength_plain (hquote : c ≠ quote) (hslash : c ≠ '\\') (cs : List Char) :
    quotedLength quote (c :: cs) = ((quotedLength quote cs).1 + 1, (quotedLength quote cs).2) := by
  cases cs <;> simp [quotedLength, hquote, hslash]

theorem quotedLength_escape (hquote : '\\' ≠ quote) (hline : d ≠ '\n') (cs : List Char) :
    quotedLength quote ('\\' :: d :: cs) =
      ((quotedLength quote cs).1 + 2, (quotedLength quote cs).2) := by
  simp [quotedLength, hquote, hline]

/- Each character, with the backslash before it, keeps the end of the string away. -/
theorem quotedLength_body (hquote : '\\' ≠ quote) {L : List (List Char)}
    (hL : ∀ ds ∈ L, ds ∈ Pattern.one (fun c => c != quote && c != '\\') +
      Pattern.oneOf ['\\'] * Pattern.one (· != '\n')) :
    quotedLength quote (L.flatten ++ quote :: rest) = (L.flatten.length + 1, true) := by
  induction L with
  | nil => exact quotedLength_close quote rest
  | cons ds L ih =>
    have hrest := ih fun es hes => hL es (List.mem_cons_of_mem _ hes)
    rcases hL ds List.mem_cons_self with ⟨c, hc, rfl⟩ | ⟨_, hslash, _, ⟨d, hd, rfl⟩, rfl⟩
    · obtain ⟨hne, hslash⟩ : c ≠ quote ∧ c ≠ '\\' := by simpa using hc
      simp [quotedLength_plain hne hslash, hrest]
    · obtain ⟨b, hb, rfl⟩ := Pattern.mem_oneOf.mp hslash
      obtain rfl := List.mem_singleton.mp hb
      have hline : d ≠ '\n' := by simpa using hd
      simp [quotedLength_escape hquote hline, hrest]

theorem readsAs_string (hquote : quote ∈ ['\'', '"', '\x60']) (h : cs ∈ Pattern.quoted quote) :
    ReadsAs .string cs := by
  obtain ⟨_, ⟨_, hopen, _, ⟨L, rfl, hL⟩, rfl⟩, _, hclose, rfl⟩ := h
  obtain ⟨a, ha, rfl⟩ := Pattern.mem_oneOf.mp hopen
  obtain rfl := List.mem_singleton.mp ha
  obtain ⟨b, hb, rfl⟩ := Pattern.mem_oneOf.mp hclose
  obtain rfl := List.mem_singleton.mp hb
  obtain ⟨hspace, hslash, hscan⟩ : isSpace b = false ∧ '\\' ≠ b ∧
      ∀ cs, scan b cs = scanQuoted b cs := by
    simp only [List.mem_cons, List.not_mem_nil, or_false] at hquote
    rcases hquote with rfl | rfl | rfl <;> exact ⟨rfl, by decide, fun _ => rfl⟩
  refine ⟨b, L.flatten ++ [b], rfl, hspace, fun rest _ => ?_⟩
  rw [hscan, scanQuoted, List.append_assoc, List.singleton_append, quotedLength_body hslash hL,
    List.length_append, List.length_singleton]

end

section
variable {cs rest : List Char}

theorem prefix_append_gap {word : List Char} (hword : ' ' ∉ word) (hrest : AtGap rest) :
    word <+: cs ++ rest ↔ word <+: cs := by
  refine ⟨fun h => ?_, fun h => h.trans (List.prefix_append cs rest)⟩
  rcases List.prefix_or_prefix_of_prefix h (List.prefix_append cs rest) with h' | ⟨more, rfl⟩
  · exact h'
  · have hmore : more <+: rest := (List.prefix_append_right_inj cs).mp h
    cases more with
    | nil => simp
    | cons c more =>
      obtain ⟨rest', rfl⟩ := hmore
      have hc : c = ' ' := hrest c rfl
      simp [hc] at hword

theorem space_notMem_patterns : ∀ p ∈ Symbol.patterns, ' ' ∉ p.1 := by
  decide +kernel

theorem longest?_append (hrest : AtGap rest) :
    Symbol.longest? (cs ++ rest) = Symbol.longest? cs := by
  have hsame : ∀ p ∈ Symbol.patterns, p.1.isPrefixOf (cs ++ rest) = p.1.isPrefixOf cs := by
    intro p hp
    rw [Bool.eq_iff_iff, List.isPrefixOf_iff_prefix, List.isPrefixOf_iff_prefix,
      prefix_append_gap (space_notMem_patterns p hp) hrest]
  rw [Symbol.longest?, Symbol.longest?, List.find?_congr hsame]

theorem longest?_spelling :
    ∀ p ∈ Symbol.spellings, Symbol.longest? p.1.toList = some (p.2, p.1.toList.length) := by
  decide +kernel

/- What else begins like a symbol is told from it by what follows. -/
theorem scan_spelling : ∀ p ∈ Symbol.spellings, ∃ c cs, p.1.toList = c :: cs ∧
    isSpace c = false ∧ ∀ rest, AtGap rest → scan c (cs ++ rest) = scanSymbol c (cs ++ rest) := by
  have hgap {f g : List Char → Scanned} (hnil : f [] = g [])
      (hspace : ∀ cs, f (' ' :: cs) = g (' ' :: cs)) : ∀ rest, AtGap rest → f rest = g rest := by
    intro rest hrest
    cases rest with
    | nil => exact hnil
    | cons c cs =>
      rw [hrest c rfl]
      exact hspace cs
  simp only [Symbol.spellings, List.forall_mem_cons, List.not_mem_nil, false_implies, implies_true,
    and_true]
  repeat' apply And.intro
  all_goals exact ⟨_, _, rfl, rfl, hgap rfl fun _ => rfl⟩

theorem readsAs_symbol {x : String} {s : Symbol} (h : (x, s) ∈ Symbol.spellings) :
    ReadsAs (.symbol s) x.toList := by
  obtain ⟨c, cs, hx, hspace, hscan⟩ := scan_spelling (x, s) h
  refine ⟨c, cs, hx, hspace, fun rest hrest => ?_⟩
  have hlongest : Symbol.longest? (c :: (cs ++ rest)) = some (s, cs.length + 1) := by
    have hspelling := longest?_spelling (x, s) h
    rwa [hx, ← longest?_append hrest] at hspelling
  rw [hscan rest hrest, scanSymbol, hlongest]
  rfl

end

section
variable {label line cs rest : List Char}

theorem fullLines_line (h : '\n' ∉ line) (cs : List Char) :
    fullLines (line ++ '\n' :: cs) = (line ++ ['\n']) :: fullLines cs := by
  induction line with
  | nil => simp [fullLines]
  | cons c line ih =>
    obtain ⟨hc, hline⟩ : '\n' ≠ c ∧ '\n' ∉ line := by simpa using h
    rw [List.cons_append, fullLines, if_neg hc.symm, ih hline]
    rfl

/- Text without a newline belongs to the line that follows it. -/
theorem fullLines_append (h : '\n' ∉ line) {l : List Char} {ls : List (List Char)}
    (hcs : fullLines cs = l :: ls) : fullLines (line ++ cs) = (line ++ l) :: ls := by
  induction line with
  | nil => exact hcs
  | cons c line ih =>
    obtain ⟨hc, hline⟩ : '\n' ≠ c ∧ '\n' ∉ line := by simpa using h
    rw [List.cons_append, fullLines, if_neg hc.symm, ih hline]
    rfl

theorem fullLines_last (h : '\n' ∉ line) (hne : line ≠ []) : fullLines line = [line] := by
  induction line with
  | nil => exact absurd rfl hne
  | cons c line ih =>
    obtain ⟨hc, hline⟩ : '\n' ≠ c ∧ '\n' ∉ line := by simpa using h
    rw [fullLines, if_neg hc.symm]
    cases line with
    | nil => rfl
    | cons d line => rw [ih hline (List.cons_ne_nil d line)]

theorem fullLines_space (cs : List Char) : ∃ l ls, fullLines (' ' :: cs) = (' ' :: l) :: ls := by
  rw [fullLines, if_neg (by decide)]
  cases fullLines cs with
  | nil => exact ⟨[], [], rfl⟩
  | cons l ls => exact ⟨l, ls, rfl⟩

theorem exists_line (cs : List Char) : '\n' ∉ cs ∨ ∃ line more, '\n' ∉ line ∧
    cs = line ++ '\n' :: more := by
  by_cases h : '\n' ∈ cs
  · obtain ⟨line, more, rfl, hline⟩ := List.eq_append_cons_of_mem h
    exact .inr ⟨line, more, hline, rfl⟩
  · exact .inl h

/- A line that is taken up whole is the label after some indentation. -/
theorem closesHeredoc_whole (h : closesHeredoc label line = true)
    (hlen : runLength isIndent line + label.length = line.length) :
    line = line.takeWhile isIndent ++ label := by
  have hlabel : label <+: line.dropWhile isIndent := by
    simp only [closesHeredoc, Bool.and_eq_true] at h
    exact List.isPrefixOf_iff_prefix.mp h.1
  have hsplit := List.takeWhile_append_dropWhile (p := isIndent) (l := line)
  have hlength := congrArg List.length hsplit
  rw [List.length_append] at hlength
  have heq : label = line.dropWhile isIndent := hlabel.eq_of_length (by
    unfold runLength at hlen
    omega)
  rw [heq, hsplit]

theorem isIndent_of_isIdentChar {c : Char} (h : isIdentChar c = true) : isIndent c = false := by
  by_contra hindent
  simp only [isIndent, Bool.not_eq_false, Bool.or_eq_true, beq_iff_eq] at hindent
  rcases hindent with rfl | rfl <;> cases h

/- The label closes wherever it stands after indentation and no longer word begins with it. -/
theorem closesHeredoc_label {indent : List Char} (hindent : ∀ c ∈ indent, isIndent c = true)
    (hlabel : label ≠ []) (hchars : ∀ c ∈ label, isIdentChar c = true)
    (hrest : ∀ c ∈ rest.head?, isIdentChar c = false) :
    closesHeredoc label (indent ++ (label ++ rest)) = true ∧
      runLength isIndent (indent ++ (label ++ rest)) = indent.length := by
  have hstop : ∀ c ∈ (label ++ rest).head?, isIndent c = false := by
    cases label with
    | nil => exact absurd rfl hlabel
    | cons d ds =>
      rintro _ ⟨⟩
      exact isIndent_of_isIdentChar (hchars d List.mem_cons_self)
  refine ⟨?_, runLength_append hindent hstop⟩
  simp only [closesHeredoc, dropWhile_append hindent hstop, List.drop_left, Bool.and_eq_true]
  constructor
  · exact List.isPrefixOf_iff_prefix.mpr (List.prefix_append label rest)
  · cases hhead : rest.head? with
    | none => rfl
    | some c => simp [hrest c hhead]

/- A line with its newline is never taken up whole. -/
theorem closesHeredoc_newline (hchars : ∀ c ∈ label, isIdentChar c = true)
    (h : closesHeredoc label (line ++ ['\n']) = true) :
    runLength isIndent (line ++ ['\n']) + label.length ≠ (line ++ ['\n']).length := by
  intro hlen
  have hmem : '\n' ∈ (line ++ ['\n']).takeWhile isIndent ++ label := by
    rw [← closesHeredoc_whole h hlen]
    simp
  rcases List.mem_append.mp hmem with hmem | hmem
  · cases List.mem_takeWhile_imp hmem
  · cases hchars _ hmem

theorem heredocBody?_append (hlabel : label ≠ []) (hchars : ∀ c ∈ label, isIdentChar c = true)
    (h : heredocBody? label (fullLines cs) = some cs.length) (hrest : AtGap rest) :
    heredocBody? label (fullLines (cs ++ rest)) = some cs.length := by
  induction hn : cs.length using Nat.strong_induction_on generalizing cs with
  | _ n ih =>
    rcases exists_line cs with hcs | ⟨line, more, hline, rfl⟩
    · have hne : cs ≠ [] := by
        rintro rfl
        cases h
      cases rest with
      | nil => rwa [List.append_nil, ← hn]
      | cons c rest =>
        obtain rfl : c = ' ' := hrest c rfl
        obtain ⟨l, ls, hl⟩ := fullLines_space rest
        rw [fullLines_last hcs hne, heredocBody?] at h
        split at h
        · next hcloses =>
          -- the last line is the label after some indentation
          have hlen := Option.some.inj h
          have hwhole := closesHeredoc_whole hcloses hlen
          have hspace : ∀ c ∈ (' ' :: l).head?, isIdentChar c = false := by
            rintro _ ⟨⟩
            rfl
          have hagain := closesHeredoc_label (fun c hc => List.mem_takeWhile_imp (l := cs) hc)
            hlabel hchars hspace
          rw [← List.append_assoc, ← hwhole] at hagain
          rw [fullLines_append hcs hl, heredocBody?, if_pos hagain.1, hagain.2, ← hn, ← hlen]
          rfl
        · cases h
    · rw [fullLines_line hline, heredocBody?] at h
      rw [List.append_assoc, List.cons_append, fullLines_line hline, heredocBody?]
      have hlength : (line ++ '\n' :: more).length = (line ++ ['\n']).length + more.length := by
        simp
        omega
      have hpos : 0 < (line ++ ['\n']).length := by simp
      split at h
      · next hcloses =>
        have hle := closesHeredoc_le hcloses
        have hne := closesHeredoc_newline hchars hcloses
        have := Option.some.inj h
        omega
      · next hcloses =>
        rw [if_neg hcloses]
        obtain ⟨m, hm, heq⟩ := Option.map_eq_some_iff.mp h
        obtain rfl : m = more.length := by omega
        rw [ih more.length (by omega) hm rfl, Option.map_some, ← hn, hlength]

theorem heredocLength?_eq {header : List Char} (h : '\n' ∉ header) (body : List Char) :
    heredocLength? (header ++ '\n' :: body) =
      let label := trimChars (fun c => c == '"' || c == '\'') (trimChars isBlank header)
      if label.isEmpty || !label.all isIdentChar then none
      else (heredocBody? label (fullLines body)).map (header.length + 1 + ·) := by
  have hheader : (header ++ '\n' :: body).takeWhile (· != '\n') = header := by
    refine takeWhile_append (fun c hc => ?_) (by rintro _ ⟨⟩; rfl)
    simpa using fun heq : c = '\n' => h (heq ▸ hc)
  rw [heredocLength?, hheader, List.drop_left]

theorem heredocLength?_append (h : heredocLength? cs = some cs.length) (hrest : AtGap rest) :
    heredocLength? (cs ++ rest) = some cs.length := by
  rcases exists_line cs with hcs | ⟨header, body, hheader, rfl⟩
  · have hall : cs.takeWhile (· != '\n') = cs := by
      rw [List.takeWhile_eq_self_iff]
      intro c hc
      simpa using fun heq : c = '\n' => hcs (heq ▸ hc)
    rw [heredocLength?, hall, List.drop_length] at h
    cases h
  · rw [heredocLength?_eq hheader] at h
    rw [List.append_assoc, List.cons_append, heredocLength?_eq hheader]
    dsimp only at h ⊢
    split at h
    · cases h
    · next hgood =>
      rw [if_neg hgood]
      obtain ⟨m, hm, heq⟩ := Option.map_eq_some_iff.mp h
      obtain rfl : m = body.length := by
        simp at heq
        omega
      simp only [Bool.or_eq_true, List.isEmpty_iff, Bool.not_eq_true', not_or,
        Bool.not_eq_false, List.all_eq_true] at hgood
      rw [heredocBody?_append hgood.1 hgood.2 hm hrest, Option.map_some, heq]

theorem readsAs_heredoc (h : heredocLength? cs = some cs.length) :
    ReadsAs .heredoc ('<' :: '<' :: '<' :: cs) := by
  refine ⟨'<', '<' :: '<' :: cs, rfl, rfl, fun rest hrest => ?_⟩
  have hscan : scan '<' ('<' :: '<' :: cs ++ rest) = scanHeredoc (cs ++ rest) := rfl
  rw [hscan, scanHeredoc, heredocLength?_append h hrest]
  rfl

end

/-- The text of a token with a content for the reader of the program. -/
inductive Lexeme : TokenKind → String → Prop
  | symbol {s : Symbol} {x : String} (spelling : (x, s) ∈ Symbol.spellings) : Lexeme (.symbol s) x
  | keyword {k : Keyword} {x : String} (spelling : lower x = k.text) : Lexeme (.keyword k) x
  | name {x : String} (pattern : x.toList ∈ Pattern.name)
      (other : ∀ k : Keyword, lower x ≠ k.text) : Lexeme .name x
  | var {x : String} (pattern : x.toList ∈ Pattern.var) : Lexeme .var x
  | number {x : String} (pattern : x.toList ∈ Pattern.number) : Lexeme .number x
  | string {x : String} {quote : Char} (mark : quote ∈ ['\'', '"', '\x60'])
      (pattern : x.toList ∈ Pattern.quoted quote) : Lexeme .string x
  | heredoc {x : String} {cs : List Char} (mark : x.toList = '<' :: '<' :: '<' :: cs)
      (closed : heredocLength? cs = some cs.length) : Lexeme .heredoc x

variable {kind : TokenKind} {x : String}

theorem Lexeme.readsAs (h : Lexeme kind x) : ReadsAs kind x.toList := by
  cases h with
  | symbol spelling => exact readsAs_symbol spelling
  | keyword spelling => exact readsAs_keyword spelling
  | name pattern other =>
    refine readsAs_name pattern (List.find?_eq_none.mpr fun k _ => ?_)
    simpa using (other k).symm
  | var pattern => exact readsAs_var pattern
  | number pattern => exact readsAs_number pattern
  | string mark pattern => exact readsAs_string mark pattern
  | heredoc mark closed =>
    rw [mark]
    exact readsAs_heredoc closed

theorem Lexeme.kept (h : Lexeme kind x) : kind ≠ .docComment ∧ kind.isTrivia = false := by
  cases h <;> exact ⟨nofun, rfl⟩

end ContractAudit.Token
