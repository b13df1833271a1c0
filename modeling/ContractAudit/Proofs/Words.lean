import ContractAudit.Grammar.File

/-! Tokens and trees without their places. Main statement: what a parser does when certain words are
ahead is put together from what its steps do, and a loop from its rounds. -/
namespace ContractAudit

open Source

/-- The kind and the lexeme of a token. -/
abbrev Word := TokenKind × String

def Token.word (t : Token) : Word := (t.kind, t.lexeme)

/-- A token that stands nowhere in particular. -/
def Word.token (w : Word) : Token := ⟨w.1, w.2, Source.Location.start, none⟩

def Name.unplaced (n : Name) : Name := { n with span := default }

mutual

/-- The expression with all its spans set to one and the same. -/
@[simp]
def Expr.unplaced : Expr → Expr
  | .var _ x => .var default x
  | .varVar _ e => .varVar default e.unplaced
  | .literal _ l => .literal default l
  | .name n => .name n.unplaced
  | .items _ f is => .items default f (Expr.unplacedItems is)
  | .new _ r as => .new default r.unplaced (Expr.unplacedArgs as)
  | .methodCall _ t m as f o =>
    .methodCall default t.unplaced m.unplaced (Expr.unplacedArgs as) f o
  | .staticCall _ r m as f => .staticCall default r.unplaced m.unplaced (Expr.unplacedArgs as) f
  | .call _ f as => .call default f.unplaced (Expr.unplacedArgs as)
  | .property _ t m o => .property default t.unplaced m.unplaced o
  | .staticProperty _ r x => .staticProperty default r.unplaced x
  | .classConst _ r x => .classConst default r.unplaced x
  | .index _ t i => .index default t.unplaced (Expr.unplacedOption i)
  | .assign _ op a b => .assign default op a.unplaced b.unplaced
  | .binary _ op a b => .binary default op a.unplaced b.unplaced
  | .unary _ op e => .unary default op e.unplaced
  | .ternary _ b y n => .ternary default b.unplaced (Expr.unplacedOption y) n.unplaced
  | .instanceOf _ e r => .instanceOf default e.unplaced r.unplaced
  | .cast _ t e => .cast default t e.unplaced
  | .isset _ es => .isset default (Expr.unplacedList es)
  | .word _ op e => .word default op e.unplaced
  | .throwing _ e => .throwing default e.unplaced
  | .yielding _ k v f => .yielding default (Expr.unplacedOption k) (Expr.unplacedOption v) f
  | .matching _ e arms => .matching default e.unplaced (Expr.unplacedArms arms)
  | .closure _ => .closure default

def Expr.unplacedOption : Option Expr → Option Expr
  | none => none
  | some e => some e.unplaced

def Expr.unplacedList : List Expr → List Expr
  | [] => []
  | e :: es => e.unplaced :: Expr.unplacedList es

def Expr.unplacedItems : List Item → List Item
  | [] => []
  | i :: is => i.unplaced :: Expr.unplacedItems is

def Item.unplaced : Item → Item
  | ⟨k, v, r, s⟩ => ⟨Expr.unplacedOption k, v.unplaced, r, s⟩

def Expr.unplacedArgs : List Arg → List Arg
  | [] => []
  | a :: as => a.unplaced :: Expr.unplacedArgs as

def Arg.unplaced : Arg → Arg
  | ⟨n, v, s⟩ => ⟨n, v.unplaced, s⟩

def Expr.unplacedArms : List Arm → List Arm
  | [] => []
  | a :: as => a.unplaced :: Expr.unplacedArms as

def Arm.unplaced : Arm → Arm
  | .cases es b => .cases (Expr.unplacedList es) b.unplaced
  | .default b => .default b.unplaced

def Member.unplaced : Member → Member
  | .ident x => .ident x
  | .dynamic e => .dynamic e.unplaced

def ClassRef.unplaced : ClassRef → ClassRef
  | .named n => .named n.unplaced
  | .selfRef _ => .selfRef default
  | .staticRef _ => .staticRef default
  | .parentRef _ => .parentRef default
  | .dynamic e => .dynamic e.unplaced
  | .anonymous _ => .anonymous default

end

namespace Grammar

/-- The words that are still to be read. -/
def Cursor.words (c : Cursor) : List Word := c.rest.map Token.word

section
variable {α β : Type} {p : Parser α} {f : α → Parser β} {ws mid rest : List Word} {Q : α → Prop}
  {S : β → Prop}

/-- Wherever these words are ahead, the parser succeeds and stops before `rest`, and what it gives
has the property. -/
def Parses (p : Parser α) (ws rest : List Word) (Q : α → Prop) : Prop :=
  ∀ c : Cursor, c.words = ws → ∃ a d, p c = .ok (a, d) ∧ d.words = rest ∧ Q a

namespace Parses

theorem pure {a : α} (h : Q a) : Parses (Pure.pure a) ws ws Q := fun c hc => ⟨a, c, rfl, hc, h⟩

theorem bind (h : Parses p ws mid Q) (hf : ∀ a, Q a → Parses (f a) mid rest S) :
    Parses (p >>= f) ws rest S := by
  intro c hc
  obtain ⟨a, d, hp, hd, ha⟩ := h c hc
  obtain ⟨b, e, hrun, he, hb⟩ := hf a ha d hd
  refine ⟨b, e, ?_, he, hb⟩
  change (p c >>= fun r => f r.1 r.2) = _
  rw [hp]
  exact hrun

theorem mono {R : α → Prop} (h : Parses p ws rest Q) (hQ : ∀ a, Q a → R a) :
    Parses p ws rest R := by
  intro c hc
  obtain ⟨a, d, hp, hd, ha⟩ := h c hc
  exact ⟨a, d, hp, hd, hQ a ha⟩

end Parses

end

section
variable {α : Type} {ws rest : List Word} {w : Word} {k : TokenKind} {x : String}
  {Q : α → Prop}

namespace Cursor

theorem words_eq_cons {c : Cursor} (h : c.words = w :: ws) :
    ∃ t ts, c.rest = t :: ts ∧ t.word = w ∧ ts.map Token.word = ws := by
  obtain ⟨t, ts, hrest, rfl, rfl⟩ := List.map_eq_cons_iff.mp h
  exact ⟨t, ts, hrest, rfl, rfl⟩

theorem kindAt?_words (c : Cursor) (n : Nat) : c.kindAt? n = c.words[n]?.map (·.1) := by
  rw [kindAt?, words, List.getElem?_map, Option.map_map]
  rfl

theorem words_next {c : Cursor} (h : c.words = w :: ws) : c.next.words = ws := by
  obtain ⟨t, ts, hrest, -, rfl⟩ := words_eq_cons h
  rw [next, hrest]
  rfl

end Cursor

namespace Parses

theorem kindAt? {n : Nat} {f : Option TokenKind → Parser α}
    (h : Parses (f (ws[n]?.map (·.1))) ws rest Q) : Parses (Grammar.kindAt? n >>= f) ws rest Q := by
  intro c hc
  rw [← hc, ← c.kindAt?_words] at h
  exact h c rfl

theorem kind? {f : Option TokenKind → Parser α}
    (h : Parses (f (ws.head?.map (·.1))) ws rest Q) : Parses (Grammar.kind? >>= f) ws rest Q := by
  rw [List.head?_eq_getElem?] at h
  exact kindAt? h

theorem checkAt {n : Nat} {f : Bool → Parser α}
    (h : Parses (f (ws[n]?.map (·.1) == some k)) ws rest Q) :
    Parses (Grammar.checkAt n k >>= f) ws rest Q := by
  intro c hc
  rw [← hc, ← c.kindAt?_words] at h
  exact h c rfl

theorem check {f : Bool → Parser α} (h : Parses (f (ws.head?.map (·.1) == some k)) ws rest Q) :
    Parses (Grammar.check k >>= f) ws rest Q := by
  rw [List.head?_eq_getElem?] at h
  exact checkAt h

theorem here {f : Location → Parser α} (h : ∀ l, Parses (f l) ws rest Q) :
    Parses (Grammar.here >>= f) ws rest Q := fun c hc => h c.here c hc

theorem spanFrom {start : Location} {f : Span → Parser α} (h : ∀ s, Parses (f s) ws rest Q) :
    Parses (Grammar.spanFrom start >>= f) ws rest Q := fun c hc => h ⟨start, c.last⟩ c hc

theorem peek? {f : Option Token → Parser α}
    (h : ∀ t, t.map Token.word = ws.head? → Parses (f t) ws rest Q) :
    Parses (Grammar.peek? >>= f) ws rest Q := by
  intro c hc
  refine h c.rest.head? ?_ c hc
  rw [← hc, Cursor.words, List.head?_map]

theorem advance {f : Unit → Parser α} (h : Parses (f ()) ws rest Q) :
    Parses (Grammar.advance >>= f) (w :: ws) rest Q :=
  fun c hc => h c.next (Cursor.words_next hc)

theorem take {f : String → Parser α} (h : Parses (f w.2) ws rest Q) :
    Parses (Grammar.take >>= f) (w :: ws) rest Q := by
  unfold Grammar.take
  simp only [bind_assoc, pure_bind]
  refine peek? fun t ht => advance ?_
  obtain ⟨t, rfl, rfl⟩ := Option.map_eq_some_iff.mp ht
  exact h

theorem accept {f : Bool → Parser α} (h : Parses (f true) ws rest Q) :
    Parses (Grammar.accept k >>= f) ((k, x) :: ws) rest Q := by
  unfold Grammar.accept
  simp only [bind_assoc]
  refine check ?_
  simp only [List.head?_cons, Option.map_some, beq_self_eq_true, if_true, bind_assoc, pure_bind]
  exact advance h

theorem accept_other {f : Bool → Parser α} (hk : ws.head?.map (·.1) ≠ some k)
    (h : Parses (f false) ws rest Q) : Parses (Grammar.accept k >>= f) ws rest Q := by
  unfold Grammar.accept
  simp only [bind_assoc]
  refine check ?_
  simpa only [beq_false_of_ne hk, Bool.false_eq_true, if_false, pure_bind] using h

theorem expect {expected : String} {f : String → Parser α} (h : Parses (f x) ws rest Q) :
    Parses (Grammar.expect k expected >>= f) ((k, x) :: ws) rest Q := by
  unfold Grammar.expect
  simp only [bind_assoc]
  refine peek? fun t ht => ?_
  obtain ⟨t, rfl, hword⟩ := Option.map_eq_some_iff.mp ht
  obtain ⟨rfl, rfl⟩ := Prod.mk.inj hword
  simp only [if_true, bind_assoc, pure_bind]
  exact advance h

end Parses

end

section
variable {α : Type} {step : α → Parser (Option α)} {a : α} {ws mid rest : List Word}
  {Q S : α → Prop}

theorem iterateFor_nil_run (a : α) (c : Cursor) : iterateFor step [] a c =
    match step a c with
    | .ok (some _, d) => refuse .nesting d
    | .ok (none, d) => .ok (a, d)
    | .error e => .error e := by
  change (step a c >>= fun r => _) = _
  rcases step a c with e | ⟨_ | b, d⟩ <;> rfl

theorem iterateFor_cons_run (t : Token) (ts : List Token) (a : α) (c : Cursor) :
    iterateFor step (t :: ts) a c =
    match step a c with
    | .ok (some b, d) => iterateFor step ts b d
    | .ok (none, d) => .ok (a, d)
    | .error e => .error e := by
  change (step a c >>= fun r => _) = _
  rcases step a c with e | ⟨_ | b, d⟩ <;> rfl

/- A loop that ends does not need further rounds. -/
theorem iterateFor_mono {ts us : List Token} {c d : Cursor} {b : α}
    (h : iterateFor step ts a c = .ok (b, d)) (hle : ts.length ≤ us.length) :
    iterateFor step us a c = .ok (b, d) := by
  induction ts generalizing us a c with
  | nil =>
    rw [iterateFor_nil_run] at h
    rcases hstep : step a c with e | ⟨_ | a', c'⟩
    · rw [hstep] at h
      cases h
    · rw [hstep] at h
      cases us with
      | nil => rw [iterateFor_nil_run, hstep]; exact h
      | cons u us => rw [iterateFor_cons_run, hstep]; exact h
    · rw [hstep] at h
      cases h
  | cons t ts ih =>
    obtain ⟨u, us, rfl⟩ : ∃ u us', us = u :: us' := List.exists_cons_of_length_pos (by
      rw [List.length_cons] at hle
      omega)
    rw [List.length_cons, List.length_cons] at hle
    rw [iterateFor_cons_run] at h ⊢
    rcases hstep : step a c with e | ⟨_ | a', c'⟩
    · rw [hstep] at h
      cases h
    · rw [hstep] at h
      exact h
    · rw [hstep] at h
      exact ih h (by omega)

namespace Parses

theorem iterate_stop (h : Parses (step a) ws mid (· = none)) :
    Parses (iterate step a) ws mid (· = a) := by
  intro c hc
  obtain ⟨_, d, hstep, hd, rfl⟩ := h c hc
  refine ⟨a, d, ?_, hd, rfl⟩
  change iterateFor step c.rest a c = _
  cases c.rest with
  | nil => rw [iterateFor_nil_run, hstep]
  | cons => rw [iterateFor_cons_run, hstep]

/- A round that reads, and then the rounds after it. -/
theorem iterate_round (h : Parses (step a) ws mid fun o => ∃ b, o = some b ∧ S b)
    (hlt : mid.length < ws.length) (hrest : ∀ b, S b → Parses (iterate step b) mid rest Q) :
    Parses (iterate step a) ws rest Q := by
  intro c hc
  obtain ⟨_, d, hstep, hd, b, rfl, hb⟩ := h c hc
  obtain ⟨r, e, hrun, he, hr⟩ := hrest b hb d hd
  refine ⟨r, e, ?_, he, hr⟩
  have hlength (c : Cursor) : c.words.length = c.rest.length := List.length_map _
  rw [← hc, ← hd, hlength, hlength] at hlt
  change iterateFor step c.rest a c = _
  cases hts : c.rest with
  | nil =>
    rw [hts] at hlt
    cases hlt
  | cons t ts =>
    rw [hts, List.length_cons] at hlt
    rw [iterateFor_cons_run, hstep]
    exact iterateFor_mono hrun (by omega)

end Parses

end

section
variable {α : Type} {ws rest : List Word} {w : Word} {x expected : String} {Q : α → Prop}

/-- A word that may name a member. -/
def Word.isIdentifier (w : Word) : Bool :=
  (w.1 == .name && !w.2.toList.contains '\\') || w.1.isKeyword

namespace Parses

theorem atIdentifier {f : Bool → Parser α}
    (h : Parses (f (ws.head?.any Word.isIdentifier)) ws rest Q) :
    Parses (Grammar.atIdentifier >>= f) ws rest Q := by
  unfold Grammar.atIdentifier
  simp only [bind_assoc, pure_bind]
  refine peek? fun t ht => ?_
  rw [← ht] at h
  cases t <;> exact h

theorem identifier {f : String → Parser α} (hw : Word.isIdentifier w = true)
    (h : Parses (f w.2) ws rest Q) :
    Parses (Grammar.identifier expected >>= f) (w :: ws) rest Q := by
  unfold Grammar.identifier
  simp only [bind_assoc]
  refine atIdentifier ?_
  simp only [List.head?_cons, Option.any_some, hw, if_true]
  exact take h

theorem className {f : Name → Parser α}
    (h : ∀ n : Name, n.unplaced = ⟨x, none, default⟩ → Parses (f n) ws rest Q) :
    Parses (Grammar.className >>= f) ((.name, x) :: ws) rest Q := by
  unfold Grammar.className
  simp only [bind_assoc, pure_bind]
  exact here fun _ => expect (spanFrom fun _ => h _ rfl)

end Parses

end

/-- Words that go on with the operand before them. -/
def isAccess : TokenKind → Bool
  | .symbol .arrow | .symbol .nullsafeArrow | .symbol .doubleColon | .symbol .lparen
  | .symbol .lbracket | .symbol .inc | .symbol .dec => true
  | _ => false

/-- Words that end an expression: they go on with no operand, and are no operator after one. -/
def isCloser (k : TokenKind) : Bool :=
  !isAccess k && (assignOp? k).isNone && k != .symbol .question && k != .keyword .kwInstanceOf &&
    (Infix.ofKind? k).isNone

section
variable {g : Nested} {ws rest : List Word} {k : TokenKind} {x : String} {start : Location}
  {least : Nat} {e : Expr} {i : Infix} {Q : Expr → Prop}

theorem Infix.ofKind?_some (h : Infix.ofKind? k = some i) :
    isAccess k = false ∧ assignOp? k = none ∧ k ≠ .symbol .question ∧
      k ≠ .keyword .kwInstanceOf := by
  revert h
  unfold Infix.ofKind?
  split <;> simp [isAccess, assignOp?]

theorem postfixStep_stops (h : ∀ w ∈ ws.head?, isAccess w.1 = false) :
    Parses (postfixStep g start e) ws ws (· = none) := by
  unfold postfixStep
  refine .kind? ?_
  cases ws with
  | nil => exact .pure rfl
  | cons w ws =>
    have hw := h w rfl
    dsimp only [List.head?_cons, Option.map_some]
    split <;> first | exact .pure rfl | simp_all [isAccess]

theorem postfixed_parses (h : Parses (primary g) ws rest Q)
    (hrest : ∀ w ∈ rest.head?, isAccess w.1 = false) : Parses (postfixed g) ws rest Q := by
  refine h.bind fun e he => ?_
  exact (Parses.iterate_stop (postfixStep_stops hrest)).mono fun _ heq => heq ▸ he

/-- No type in parentheses stands ahead. -/
def NoCast (ws : List Word) : Prop :=
  ∀ a t b more, ws = a :: t :: b :: more → a.1 = .symbol .lparen → b.1 = .symbol .rparen →
    t.1 ≠ .name ∧ t.1 ≠ .keyword .kwArray

theorem castAhead_parses (h : NoCast ws) : Parses castAhead ws ws (· = none) := by
  rintro ⟨ts, last⟩ rfl
  refine ⟨none, ⟨ts, last⟩, ?_, rfl, rfl⟩
  rcases ts with _ | ⟨a, _ | ⟨t, _ | ⟨b, more⟩⟩⟩
  · rfl
  · rfl
  · rfl
  · have hnone := h a.word t.word b.word (more.map Token.word) rfl
    unfold castAhead
    change (if _ then _ else _ : Parser (Option String)) _ = _
    split
    · next hall =>
      simp only [Bool.and_eq_true, decide_eq_true_eq, Bool.or_eq_true] at hall
      obtain ⟨⟨⟨hl, hr⟩, hname | hname⟩, -⟩ := hall
      · exact absurd hname (hnone hl hr).1
      · exact absurd hname (hnone hl hr).2
    · rfl

/- Nothing that comes before an operand stands ahead. -/
theorem operand_parses (hcast : NoCast ((k, x) :: ws)) (hunary : unaryOp? k = none)
    (hword : wordOp? k = none) (hthrow : k ≠ .keyword .kwThrow) (hyield : k ≠ .keyword .kwYield)
    (h : Parses (postfixed g) ((k, x) :: ws) rest Q) :
    Parses (operand g) ((k, x) :: ws) rest Q := by
  unfold operand
  refine .here fun start => (castAhead_parses hcast).bind ?_
  rintro _ rfl
  refine .kind? ?_
  simp only [List.head?_cons, Option.map_some, Option.bind_some, hunary]
  refine .kind? ?_
  simp only [List.head?_cons, Option.map_some, Option.bind_some, hword]
  refine .kind? ?_
  simp only [List.head?_cons, Option.map_some]
  split
  · next hk => exact absurd (Option.some.inj hk) hthrow
  · next hk => exact absurd (Option.some.inj hk) hyield
  · exact h

theorem operatorStep_stops
    (h : ∀ w ∈ ws.head?, isCloser w.1 = true ∨ ∃ i, Infix.ofKind? w.1 = some i ∧ i.power < least) :
    Parses (operatorStep g start least e) ws ws (· = none) := by
  unfold operatorStep
  refine .kind? ?_
  cases ws with
  | nil => exact .pure rfl
  | cons w ws =>
    simp only [List.head?_cons, Option.map_some]
    rcases h w rfl with hcloser | ⟨i, hi, hlt⟩
    · simp only [isCloser, Bool.and_eq_true, Bool.not_eq_true', Option.isNone_iff_eq_none,
        bne_iff_ne] at hcloser
      obtain ⟨⟨⟨⟨-, hassign⟩, hquestion⟩, hinstance⟩, hbinary⟩ := hcloser
      simp only [hassign, hquestion, hinstance, hbinary, if_false]
      exact .pure rfl
    · obtain ⟨-, hassign, hquestion, hinstance⟩ := Infix.ofKind?_some hi
      simp only [hassign, hquestion, hinstance, hi, if_false, Nat.not_le.mpr hlt]
      exact .pure rfl

theorem operatorStep_binary (hk : Infix.ofKind? k = some i) (hleast : least ≤ i.power)
    (h : Parses (g.expr i.rightPower) ws rest Q) :
    Parses (operatorStep g start least e) ((k, x) :: ws) rest
      fun o => ∃ e', o = some e' ∧ ∃ s r, e' = .binary s i.op e r ∧ Q r := by
  unfold operatorStep
  refine .kind? ?_
  obtain ⟨-, hassign, hquestion, hinstance⟩ := Infix.ofKind?_some hk
  simp only [List.head?_cons, Option.map_some, hassign, hquestion, hinstance, hk, if_false, hleast,
    if_true]
  refine .advance (h.bind fun r hr => .spanFrom fun s => .pure ?_)
  exact ⟨_, rfl, s, r, rfl, hr⟩

end

/-- No word ahead goes on with an expression. -/
def Closed (ws : List Word) : Prop := ∀ w ∈ ws.head?, isCloser w.1 = true

section
variable {g : Nested} {ws mid rest : List Word} {w : Word} {least : Nat} {P Q : Expr → Prop}

theorem Closed.cons (h : isCloser w.1 = true) : Closed (w :: ws) := by
  rintro _ ⟨⟩
  exact h

theorem Closed.access (h : Closed ws) : ∀ w ∈ ws.head?, isAccess w.1 = false := by
  intro w hw
  have hcloser := h w hw
  simp only [isCloser, Bool.and_eq_true, Bool.not_eq_true'] at hcloser
  exact hcloser.1.1.1.1

theorem expression_operand (h : Parses (operand g) ws rest Q) (hrest : Closed rest) :
    Parses (expression g least) ws rest Q := by
  unfold expression
  refine .here fun start => h.bind fun e he => ?_
  refine (Parses.iterate_stop (operatorStep_stops fun w hw => .inl (hrest w hw))).mono ?_
  rintro _ rfl
  exact he

theorem expression_operator (h : Parses (operand g) ws mid P)
    (hstep : ∀ start e, P e → Parses (operatorStep g start least e) mid rest
      fun o => ∃ e', o = some e' ∧ Q e')
    (hlt : rest.length < mid.length) (hrest : Closed rest) :
    Parses (expression g least) ws rest Q := by
  unfold expression
  refine .here fun start => h.bind fun e he => .iterate_round (hstep start e he) hlt ?_
  intro e' he'
  refine (Parses.iterate_stop (operatorStep_stops fun w hw => .inl (hrest w hw))).mono ?_
  rintro _ rfl
  exact he'

theorem postfixed_access (h : Parses (primary g) ws mid P)
    (hstep : ∀ start e, P e → Parses (postfixStep g start e) mid rest
      fun o => ∃ e', o = some e' ∧ Q e')
    (hlt : rest.length < mid.length) (hrest : Closed rest) : Parses (postfixed g) ws rest Q := by
  unfold postfixed
  refine h.bind fun e he => .iterate_round (hstep _ e he) hlt ?_
  intro e' he'
  refine (Parses.iterate_stop (postfixStep_stops hrest.access)).mono ?_
  rintro _ rfl
  exact he'

end

end Grammar

end ContractAudit
