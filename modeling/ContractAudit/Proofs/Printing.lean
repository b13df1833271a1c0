import ContractAudit.Proofs.Words

/-! Writing expressions out as words, with parentheses around what stands inside another. Main
statements: how the words of an expression begin, so that nothing else is read in its place. -/
namespace ContractAudit

namespace Symbol

/-- The first of the spellings. -/
def text (s : Symbol) : String := ((spellings.find? (·.2 == s)).map (·.1)).getD ""

def word (s : Symbol) : Word := (.symbol s, s.text)

end Symbol

def Keyword.word (k : Keyword) : Word := (.keyword k, k.text)

namespace AssignOp

def symbol : AssignOp → Symbol
  | assign | assignRef => .assign
  | plus => .plusAssign
  | minus => .minusAssign
  | mul => .mulAssign
  | div => .divAssign
  | concat => .concatAssign
  | mod => .modAssign
  | pow => .powAssign
  | coalesce => .coalesceAssign
  | bitAnd => .andAssign
  | bitOr => .orAssign
  | bitXor => .xorAssign
  | shl => .shlAssign
  | shr => .shrAssign

/-- Assignment by reference is written with two words. -/
def words (op : AssignOp) : List Word :=
  op.symbol.word :: if op = assignRef then [Symbol.amp.word] else []

end AssignOp

namespace UnaryOp

/-- Does the operator stand after its operand? -/
def isPostfix : UnaryOp → Bool
  | postInc | postDec => true
  | _ => false

def symbol : UnaryOp → Symbol
  | not => .bang
  | neg => .minus
  | plus => .plus
  | bitNot => .tilde
  | silence => .atSign
  | ref => .amp
  | preInc | postInc => .inc
  | preDec | postDec => .dec

end UnaryOp

namespace Grammar

/-- What is left open by the trees: which words stand for the binary operators, and whether an array
inside another expression stands without parentheses, as other literals do. -/
structure Style where
  operator : BinaryOp → Word
  spells : ∀ op, ∃ i, Infix.ofKind? (operator op).1 = some i ∧ i.op = op
  bareArrays : Bool

/-- A name as a member or an argument has it: keywords are allowed there. -/
def identifierWord (x : String) : Word :=
  match Keyword.ofText? x with
  | some k => (.keyword k, x)
  | none => (.name, x)

def parens (ws : List Word) : List Word := Symbol.lparen.word :: ws ++ [Symbol.rparen.word]

def brackets (ws : List Word) : List Word := Symbol.lbracket.word :: ws ++ [Symbol.rbracket.word]

def commas (wss : List (List Word)) : List Word := [Symbol.comma.word].intercalate wss

/-- The words of a call's arguments. -/
def callWords (firstClass : Bool) (args : List (List Word)) : List Word :=
  parens (if firstClass then [Symbol.ellipsis.word] else commas args)

/-- Variables and literals, arrays among them. -/
def isAtom : Expr → Bool
  | .var .. | .literal .. | .items .. => true
  | _ => false

def Style.isBare (st : Style) : Expr → Bool
  | .items .. => st.bareArrays
  | e => isAtom e

/-- The words of an expression that stands inside another. -/
def Style.inside (st : Style) (e : Expr) (ws : List Word) : List Word :=
  if st.isBare e then ws else parens ws

end Grammar

open Grammar

mutual

/-- The words of an expression. -/
def Expr.words (st : Style) : Expr → List Word
  | .var _ x => [(.var, "$" ++ x)]
  | .literal _ (.number x) => [(.number, x)]
  | .literal _ (.string x) => [(.string, x)]
  | .items _ _ is => brackets (commas (Expr.itemWords st is))
  | .new _ (.named n) as =>
    Keyword.kwNew.word :: (.name, n.raw) :: callWords false (Expr.argWords st as)
  | .methodCall _ t (.ident m) as firstClass nullsafe =>
    st.inside t (t.words st) ++ (if nullsafe then Symbol.nullsafeArrow else .arrow).word ::
      identifierWord m :: callWords firstClass (Expr.argWords st as)
  | .staticCall _ (.named n) (.ident m) as firstClass =>
    (.name, n.raw) :: Symbol.doubleColon.word :: identifierWord m ::
      callWords firstClass (Expr.argWords st as)
  | .property _ t (.ident m) nullsafe =>
    st.inside t (t.words st) ++
      [(if nullsafe then Symbol.nullsafeArrow else .arrow).word, identifierWord m]
  | .index _ t i => st.inside t (t.words st) ++ brackets (Expr.optionWords st i)
  | .assign _ op t v => st.inside t (t.words st) ++ op.words ++ st.inside v (v.words st)
  | .binary _ op l r => st.inside l (l.words st) ++ st.operator op :: st.inside r (r.words st)
  | .unary _ op e =>
    if op.isPostfix then st.inside e (e.words st) ++ [op.symbol.word]
    else op.symbol.word :: st.inside e (e.words st)
  | .ternary _ c y n =>
    st.inside c (c.words st) ++ Symbol.question.word :: Expr.optionWords st y ++
      Symbol.colon.word :: st.inside n (n.words st)
  | _ => []

def Expr.optionWords (st : Style) : Option Expr → List Word
  | none => []
  | some e => st.inside e (e.words st)

def Expr.itemWords (st : Style) : List Item → List (List Word)
  | [] => []
  | i :: is => i.words st :: Expr.itemWords st is

def Item.words (st : Style) : Item → List Word
  | ⟨none, v, byRef, spread⟩ =>
    (if spread then [Symbol.ellipsis.word] else []) ++
      ((if byRef then [Symbol.amp.word] else []) ++ st.inside v (v.words st))
  | ⟨some k, v, byRef, spread⟩ =>
    (if spread then [Symbol.ellipsis.word] else []) ++ (st.inside k (k.words st) ++
      Symbol.doubleArrow.word ::
        ((if byRef then [Symbol.amp.word] else []) ++ st.inside v (v.words st)))

def Expr.argWords (st : Style) : List Arg → List (List Word)
  | [] => []
  | a :: as => a.words st :: Expr.argWords st as

def Arg.words (st : Style) : Arg → List Word
  | ⟨name, v, spread⟩ =>
    (if spread then [Symbol.ellipsis.word] else []) ++
      ((name.elim [] fun x => [identifierWord x, Symbol.colon.word]) ++ st.inside v (v.words st))

end

/-- The words of the expression where it stands inside another. -/
def Expr.inside (st : Style) (e : Expr) : List Word := st.inside e (e.words st)

theorem Expr.inside_def (st : Style) (e : Expr) : st.inside e (e.words st) = e.inside st := rfl

theorem Expr.itemWords_eq_map (st : Style) (is : List Item) :
    Expr.itemWords st is = is.map (·.words st) := by
  induction is with
  | nil => rfl
  | cons i is ih => rw [Expr.itemWords, ih, List.map_cons]

theorem Expr.argWords_eq_map (st : Style) (as : List Arg) :
    Expr.argWords st as = as.map (·.words st) := by
  induction as with
  | nil => rfl
  | cons a as ih => rw [Expr.argWords, ih, List.map_cons]

namespace Grammar

/-- A name that can stand for a member: one without a namespace. -/
def IsIdentifier (x : String) : Prop := '\\' ∉ x.toList

/-- A name as it is read, that is none of the words reserved for classes. -/
structure IsClassName (n : Name) : Prop where
  unresolved : n.resolved = none
  unreserved : ∀ x ∈ ["self", "static", "parent"], n.isWord x = false

structure IsCall (as : List Arg) (firstClass : Bool) : Prop where
  names : ∀ a ∈ as, ∀ x ∈ a.name, IsIdentifier x
  -- a call that only makes a closure has no arguments
  none : firstClass = true → as = []

/-- What the trees assign to. -/
inductive IsTarget : Expr → Prop
  | var (s : Source.Span) (x : String) : IsTarget (.var s x)
  | property (s : Source.Span) (t : Expr) (m : Member) (nullsafe : Bool) :
      IsTarget (.property s t m nullsafe)
  | index (s : Source.Span) (t : Expr) (i : Option Expr) : IsTarget (.index s t i)

/-- The expressions that are written out, and all that is inside them. -/
inductive Printable : Expr → Prop
  | var (s : Source.Span) (x : String) : Printable (.var s x)
  | literal (s : Source.Span) (l : Literal) : Printable (.literal s l)
  | array (s : Source.Span) {is : List Item} (keys : ∀ i ∈ is, ∀ k ∈ i.key, Printable k)
      (values : ∀ i ∈ is, Printable i.value)
      -- without a key, a reference is an operator of the value
      (refs : ∀ i ∈ is, i.byRef = true → i.key.isSome) : Printable (.items s .array is)
  | new (s : Source.Span) {n : Name} {as : List Arg} (name : IsClassName n) (call : IsCall as false)
      (args : ∀ a ∈ as, Printable a.value) : Printable (.new s (.named n) as)
  | methodCall (s : Source.Span) {t : Expr} {m : String} {as : List Arg} {firstClass : Bool}
      (nullsafe : Bool) (target : Printable t) (member : IsIdentifier m)
      (call : IsCall as firstClass) (args : ∀ a ∈ as, Printable a.value) :
      Printable (.methodCall s t (.ident m) as firstClass nullsafe)
  | staticCall (s : Source.Span) {n : Name} {m : String} {as : List Arg} {firstClass : Bool}
      (name : IsClassName n) (member : IsIdentifier m) (call : IsCall as firstClass)
      (args : ∀ a ∈ as, Printable a.value) :
      Printable (.staticCall s (.named n) (.ident m) as firstClass)
  | property (s : Source.Span) {t : Expr} {m : String} (nullsafe : Bool) (target : Printable t)
      (member : IsIdentifier m) : Printable (.property s t (.ident m) nullsafe)
  | index (s : Source.Span) {t : Expr} {i : Option Expr} (target : Printable t)
      (index : ∀ e ∈ i, Printable e) : Printable (.index s t i)
  | assign (s : Source.Span) (op : AssignOp) {t v : Expr} (kind : IsTarget t)
      (target : Printable t) (value : Printable v) : Printable (.assign s op t v)
  | binary (s : Source.Span) (op : BinaryOp) {l r : Expr} (left : Printable l)
      (right : Printable r) : Printable (.binary s op l r)
  | unary (s : Source.Span) (op : UnaryOp) {e : Expr} (operand : Printable e) :
      Printable (.unary s op e)
  | ternary (s : Source.Span) {c n : Expr} {y : Option Expr} (cond : Printable c)
      (yes : ∀ e ∈ y, Printable e) (no : Printable n) : Printable (.ternary s c y n)

/-- Kinds that an expression inside another begins with. -/
def isInner : TokenKind → Bool
  | .var | .number | .string | .symbol .lparen | .symbol .lbracket => true
  | _ => false

section
variable {st : Style} {e : Expr} {k : TokenKind}

theorem isInner_cases (h : isInner k = true) :
    k = .var ∨ k = .number ∨ k = .string ∨ k = .symbol .lparen ∨ k = .symbol .lbracket := by
  revert h
  unfold isInner
  split <;> simp

theorem atom_of_isBare (h : st.isBare e = true) : isAtom e = true := by
  cases e <;> first | rfl | cases h

theorem atom_head (st : Style) (h : Printable e) (hatom : isAtom e = true) :
    ∃ w ws, e.words st = w :: ws ∧ isInner w.1 = true ∧ w.1 ≠ .symbol .lparen := by
  cases h with
  | var | array => exact ⟨_, _, rfl, rfl, nofun⟩
  | literal s l => cases l <;> exact ⟨_, _, rfl, rfl, nofun⟩
  | _ => cases hatom

theorem inside_head (st : Style) (h : Printable e) :
    ∃ w ws, e.inside st = w :: ws ∧ isInner w.1 = true := by
  unfold Expr.inside Style.inside
  split
  · next hbare =>
    obtain ⟨w, ws, hw, hinner, -⟩ := atom_head st h (atom_of_isBare hbare)
    exact ⟨w, ws, hw, hinner⟩
  · exact ⟨_, _, rfl, rfl⟩

theorem inside_head_ne (h : Printable e) (hk : isInner k = false) (rest : List Word) :
    (e.inside st ++ rest).head?.map (·.1) ≠ some k := by
  obtain ⟨w, ws, hw, hinner⟩ := inside_head st h
  intro heq
  obtain rfl : w.1 = k := by simpa [hw] using heq
  rw [hinner] at hk
  cases hk

theorem identifierWord_kind (x : String) :
    (identifierWord x).1 = .name ∨ ∃ k, (identifierWord x).1 = .keyword k := by
  unfold identifierWord
  cases Keyword.ofText? x with
  | none => exact .inl rfl
  | some k => exact .inr ⟨k, rfl⟩

theorem identifierWord_text (x : String) : (identifierWord x).2 = x := by
  unfold identifierWord
  cases Keyword.ofText? x <;> rfl

theorem identifierWord_isIdentifier {x : String} (h : IsIdentifier x) :
    Word.isIdentifier (identifierWord x) = true := by
  unfold identifierWord
  cases Keyword.ofText? x with
  | none => simpa [Word.isIdentifier, TokenKind.isKeyword, IsIdentifier] using h
  | some k => exact Bool.or_true _

/- A name comes first only where `::` follows it. -/
theorem words_head (st : Style) (h : Printable e) :
    ∃ w ws, e.words st = w :: ws ∧ w.1 ≠ .keyword .kwArray ∧
      (w.1 = .name → ∃ ws', ws = Symbol.doubleColon.word :: ws') := by
  have inner {t : Expr} (ht : Printable t) (more : List Word) :
      ∃ w ws, t.inside st ++ more = w :: ws ∧ w.1 ≠ .keyword .kwArray ∧
        (w.1 = .name → ∃ ws', ws = Symbol.doubleColon.word :: ws') := by
    obtain ⟨w, ws, heq, hw⟩ := inside_head st ht
    refine ⟨w, ws ++ more, by rw [heq, List.cons_append], ?_, fun hname => ?_⟩
    · intro harray
      rw [harray] at hw
      cases hw
    · rw [hname] at hw
      cases hw
  cases h with
  | var | array | new => exact ⟨_, _, rfl, nofun, nofun⟩
  | literal s l => cases l <;> exact ⟨_, _, rfl, nofun, nofun⟩
  | staticCall => exact ⟨_, _, rfl, nofun, fun _ => ⟨_, rfl⟩⟩
  | methodCall _ _ ht | property _ _ ht | index _ ht | binary _ _ ht => exact inner ht _
  | assign _ _ _ ht =>
    rw [Expr.words, List.append_assoc]
    exact inner ht _
  | ternary _ ht =>
    rw [Expr.words, List.append_assoc]
    exact inner ht _
  | unary s op ht =>
    rw [Expr.words]
    split
    · exact inner ht _
    · exact ⟨_, _, rfl, nofun, nofun⟩

theorem noCast_of_ne {w : Word} (h : w.1 ≠ .symbol .lparen) (ws : List Word) :
    NoCast (w :: ws) := by
  intro a t b more heq ha
  obtain ⟨rfl, -⟩ := List.cons.inj heq
  exact absurd ha h

theorem inside_noCast (st : Style) (h : Printable e) (rest : List Word) :
    NoCast (e.inside st ++ rest) := by
  unfold Expr.inside Style.inside
  split
  · next hbare =>
    obtain ⟨w, ws, hw, -, hne⟩ := atom_head st h (atom_of_isBare hbare)
    rw [hw]
    exact noCast_of_ne hne _
  · intro a t b more heq ha hb
    obtain ⟨w, ws, hw, harray, hname⟩ := words_head st h
    rw [hw] at heq
    obtain ⟨rfl, hws⟩ : w = t ∧ ws ++ Symbol.rparen.word :: rest = b :: more := by
      simpa [parens] using (List.cons.inj heq).2
    refine ⟨fun hn => ?_, harray⟩
    obtain ⟨ws', rfl⟩ := hname hn
    cases hws
    cases hb

end

theorem length_brackets (ws : List Word) : (brackets ws).length = ws.length + 2 := by
  simp [brackets]

theorem commas_one (ws : List Word) : commas [ws] = ws := by
  simp [commas]

theorem commas_head (us : List Word) (wss : List (List Word)) :
    ∃ ws, commas (us :: wss) = us ++ ws := by
  cases wss with
  | nil => exact ⟨[], by simp [commas]⟩
  | cons vs wss => exact ⟨Symbol.comma.word :: commas (vs :: wss), by simp [commas]⟩

theorem commas_cons (us vs : List Word) (wss : List (List Word)) :
    commas (us :: vs :: wss) = us ++ Symbol.comma.word :: commas (vs :: wss) := by
  simp [commas]

theorem length_le_commas {ws : List Word} {wss : List (List Word)} (h : ws ∈ wss) :
    ws.length ≤ (commas wss).length := by
  induction wss with
  | nil => cases h
  | cons us wss ih =>
    cases wss with
    | nil => simp_all [commas]
    | cons vs wss =>
      rw [commas_cons, List.length_append, List.length_cons]
      rcases List.mem_cons.mp h with rfl | h
      · omega
      · have := ih h
        omega

end Grammar

end ContractAudit
