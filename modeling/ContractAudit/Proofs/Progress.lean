import ContractAudit.Grammar.Cursor
import Mathlib.Data.List.Infix
import Mathlib.Order.Basic

/-! How parsers move the cursor. Main statements: a sequence of steps of which the first reads a
token, and the others do not go back, reads a token; and a loop whose rounds read a token each time
they go on ends within the rounds it is allowed. -/
namespace ContractAudit.Grammar

open Source

instance : Preorder Cursor where
  le c d := c.rest <:+ d.rest
  le_refl _ := List.suffix_rfl
  le_trans _ _ _ h h' := h.trans h'

namespace Cursor
variable {c d : Cursor} {n : Nat}

theorem le_def : c ≤ d ↔ c.rest <:+ d.rest := Iff.rfl

theorem lt_def : c < d ↔ c.rest <:+ d.rest ∧ c.rest.length < d.rest.length := by
  rw [lt_iff_le_not_ge, le_def, le_def]
  constructor
  · rintro ⟨h, hnot⟩
    refine ⟨h, lt_of_le_of_ne h.length_le fun heq => hnot ?_⟩
    rw [h.eq_of_length heq]
  · rintro ⟨h, hlt⟩
    exact ⟨h, fun h' => absurd h'.length_le (by omega)⟩

theorem next_le (c : Cursor) : c.next ≤ c := by
  unfold next
  split
  · exact le_rfl
  · next t ts h => exact le_def.mpr (h ▸ List.suffix_cons t ts)

theorem next_lt (h : c.rest ≠ []) : c.next < c := by
  unfold next
  split
  · next hnil => exact absurd hnil h
  · next t ts heq => exact lt_def.mpr (heq ▸ ⟨List.suffix_cons t ts, by simp⟩)

theorem left_of_lt (h : c < d) (hd : d.rest.length < n + 1) : c.rest.length < n := by
  have := (lt_def.mp h).2
  omega

theorem left_of_le (h : c ≤ d) (hd : d.rest.length < n) : c.rest.length < n := by
  have := (le_def.mp h).length_le
  omega

end Cursor

section
variable {α β : Type} {p : Parser α} {f : α → Parser β} {c d : Cursor} {n m : Nat}
  {Q R : α → Cursor → Prop} {S : β → Cursor → Prop}

/-- Begun at `c`, the parser stays within its allowance, and what it gives and where it stops have
the property. -/
def Ends (p : Parser α) (c : Cursor) (Q : α → Cursor → Prop) : Prop :=
  match p c with
  | .ok (a, d) => Q a d
  | .error e => e.cause ≠ .nesting

namespace Ends

theorem of_ok {a : α} (hp : p c = .ok (a, d)) (h : Q a d) : Ends p c Q := by
  unfold Ends
  rw [hp]
  exact h

theorem run {a : α} (h : Ends p c Q) (hrun : p c = .ok (a, d)) : Q a d := by
  unfold Ends at h
  rw [hrun] at h
  exact h

theorem mono (h : Ends p c Q) (hQ : ∀ a d, Q a d → R a d) : Ends p c R := by
  unfold Ends at h ⊢
  split
  · next a d hp =>
    rw [hp] at h
    exact hQ a d h
  · next e hp =>
    rw [hp] at h
    exact h

theorem bind (h : Ends p c Q) (hf : ∀ a d, Q a d → Ends (f a) d S) : Ends (p >>= f) c S := by
  unfold Ends at h
  split at h
  · next a d hp =>
    have hrun : (p >>= f) c = f a d := by
      change (p c >>= fun r => f r.1 r.2) = _
      rw [hp]
      rfl
    unfold Ends
    rw [hrun]
    exact hf a d h
  · next e hp =>
    have hrun : (p >>= f) c = .error e := by
      change (p c >>= fun r => f r.1 r.2) = _
      rw [hp]
      rfl
    unfold Ends
    rw [hrun]
    exact h

theorem pure {a : α} (h : Q a c) : Ends (Pure.pure a) c Q := h

theorem fail (expected : String) : Ends (Grammar.fail expected) c Q := by
  change (c.unexpected expected).cause ≠ _
  unfold Cursor.unexpected
  split <;> simp

end Ends

/-- The parser reads a token at `c`, or fails. -/
abbrev ReadsAt (p : Parser α) (c : Cursor) : Prop := Ends p c fun _ d => d < c

/-- A round of a loop at `c`: if it goes on, it reads a token. -/
abbrev RoundAt (p : Parser (Option α)) (c : Cursor) : Prop :=
  Ends p c fun o d => d ≤ c ∧ (o.isSome = true → d < c)

/-- With fewer than `n` tokens left, the parser does not go back. -/
def Moves (n : Nat) (p : Parser α) : Prop :=
  ∀ c, c.rest.length < n → Ends p c fun _ d => d ≤ c

/-- With fewer than `n` tokens left, the parser reads one, or fails. -/
def Reads (n : Nat) (p : Parser α) : Prop := ∀ c, c.rest.length < n → ReadsAt p c

/-- With fewer than `n` tokens left, a round that goes on reads one. -/
def Rounds (n : Nat) (p : Parser (Option α)) : Prop := ∀ c, c.rest.length < n → RoundAt p c

/-- A parser that only looks at the tokens ahead. -/
class Looks (p : Parser α) : Prop where
  looks : ∀ c, ∃ a, p c = .ok (a, c)

/-- A parser that never goes back, whatever is left. -/
class Onward (p : Parser α) : Prop where
  moves : ∀ n, Moves n p

theorem Onward.run [hp : Onward p] {a : α} (hrun : p c = .ok (a, d)) : d ≤ c :=
  (hp.moves (c.rest.length + 1) c (Nat.lt_succ_self _)).run hrun

theorem Ends.look [h : Looks p] (hf : ∀ a, p c = .ok (a, c) → Ends (f a) c S) :
    Ends (p >>= f) c S := by
  obtain ⟨a, ha⟩ := h.looks c
  exact (Ends.of_ok (Q := fun b d => b = a ∧ d = c) ha ⟨rfl, rfl⟩).bind fun b d hbd => by
    obtain ⟨rfl, rfl⟩ := hbd
    exact hf b ha

instance [h : Looks p] : Onward p where
  moves n c _ := by
    obtain ⟨a, ha⟩ := h.looks c
    exact .of_ok ha le_rfl

instance {a : α} : Looks (pure a : Parser α) := ⟨fun _ => ⟨a, rfl⟩⟩

instance : Looks (get : Parser Cursor) := ⟨fun c => ⟨c, rfl⟩⟩

instance [hp : Looks p] [hf : ∀ a, Looks (f a)] : Looks (p >>= f) where
  looks c := by
    obtain ⟨a, ha⟩ := hp.looks c
    obtain ⟨b, hb⟩ := (hf a).looks c
    refine ⟨b, ?_⟩
    change (p c >>= fun r => f r.1 r.2) = _
    rw [ha]
    exact hb

instance {q : Parser α} {b : Prop} [Decidable b] [hp : Looks p] [hq : Looks q] :
    Looks (if b then p else q) := by
  split
  · exact hp
  · exact hq

instance : Looks peek? := inferInstanceAs (Looks (get >>= _))

instance (n : Nat) : Looks (kindAt? n) := inferInstanceAs (Looks (get >>= _))

instance : Looks kind? := inferInstanceAs (Looks (kindAt? 0))

instance (n : Nat) (k : TokenKind) : Looks (checkAt n k) := inferInstanceAs (Looks (get >>= _))

instance (k : TokenKind) : Looks (check k) := inferInstanceAs (Looks (checkAt 0 k))

instance (word : String) : Looks (checkWord word) := inferInstanceAs (Looks (peek? >>= _))

instance : Looks atEnd := inferInstanceAs (Looks (get >>= _))

instance : Looks here := inferInstanceAs (Looks (get >>= _))

instance (start : Location) : Looks (spanFrom start) := inferInstanceAs (Looks (get >>= _))

namespace Moves

theorem mono (h : Moves n p) (hm : m ≤ n) : Moves m p := fun c hc => h c (by omega)

theorem bind (h : Moves n p) (hf : ∀ a, Moves n (f a)) : Moves n (p >>= f) := by
  intro c hc
  refine (h c hc).bind fun a d hd => ?_
  exact (hf a d (Cursor.left_of_le hd hc)).mono fun _ _ he => he.trans hd

theorem step [h : Onward p] (hf : ∀ a, Moves n (f a)) : Moves n (p >>= f) := (h.moves n).bind hf

theorem pure {a : α} : Moves n (Pure.pure a : Parser α) := Onward.moves n

theorem map {g : α → β} (h : Moves n p) : Moves n (g <$> p) := by
  rw [map_eq_pure_bind]
  exact h.bind fun _ => pure

/- A part that may be left out, and what follows it. -/
theorem optional {γ : Type} {b : Bool} {g : α → γ} {none : γ} {f : γ → Parser β} (h : Moves n p)
    (hf : ∀ a, Moves n (f a)) :
    Moves n (if b = true then g <$> p >>= f else Pure.pure none >>= f) := by
  split
  · exact h.map.bind hf
  · exact pure.bind hf

end Moves

/- The first step reads a token, so what follows has fewer of them left. -/
theorem Ends.first (h : ReadsAt p c) (hc : c.rest.length < n + 1) (hf : ∀ a, Moves n (f a)) :
    ReadsAt (p >>= f) c := by
  refine h.bind fun a d hd => ?_
  exact (hf a d (Cursor.left_of_lt hd hc)).mono fun _ _ he => he.trans_lt hd

theorem Ends.round {p : Parser (Option α)} (h : ReadsAt p c) : RoundAt p c :=
  h.mono fun _ _ hd => ⟨hd.le, fun _ => hd⟩

namespace Reads

theorem mono (h : Reads n p) (hm : m ≤ n) : Reads m p := fun c hc => h c (by omega)

theorem moves (h : Reads n p) : Moves n p := fun c hc => (h c hc).mono fun _ _ hd => hd.le

/- Where a token was read before. -/
theorem later (h : Reads (n + 1) p) : Reads n p := h.mono (by omega)

theorem bind (h : Reads n p) (hf : ∀ a, Moves n (f a)) : Reads n (p >>= f) :=
  fun c hc => (h c hc).first (by omega) hf

theorem first (h : Reads (n + 1) p) (hf : ∀ a, Moves n (f a)) : Reads (n + 1) (p >>= f) :=
  fun c hc => (h c hc).first hc hf

theorem skip (h : Moves n p) (hf : ∀ a, Reads n (f a)) : Reads n (p >>= f) := by
  intro c hc
  refine (h c hc).bind fun a d hd => ?_
  exact (hf a d (Cursor.left_of_le hd hc)).mono fun _ _ he => he.trans_le hd

theorem step [h : Onward p] (hf : ∀ a, Reads n (f a)) : Reads n (p >>= f) := skip (h.moves n) hf

theorem map {g : α → β} (h : Reads n p) : Reads n (g <$> p) := by
  rw [map_eq_pure_bind]
  exact h.bind fun _ => .pure

theorem fail (expected : String) : Reads n (Grammar.fail expected : Parser α) :=
  fun _ _ => .fail expected

theorem round {p : Parser (Option α)} (h : Reads n p) : Rounds n p := fun c hc => (h c hc).round

end Reads

theorem Rounds.stop : Rounds n (pure none : Parser (Option α)) :=
  fun _ _ => .pure ⟨le_rfl, by simp⟩

theorem Rounds.look {f : α → Parser (Option β)} [Looks p] (hf : ∀ a, Rounds n (f a)) :
    Rounds n (p >>= f) :=
  fun c hc => .look fun a _ => hf a c hc

/- What is read for every count of tokens left never goes back. -/
theorem onward_of_reads (h : ∀ n, Reads n p) : Onward p := ⟨fun n => (h n).moves⟩

instance (expected : String) : Onward (fail expected : Parser α) :=
  onward_of_reads fun _ => .fail expected

end

section
variable {α : Type} {k : TokenKind} {c : Cursor} {n m : Nat} {f : Bool → Parser α}
  {Q : α → Cursor → Prop}

theorem rest_ne_nil_of_kind? (h : kind? c = .ok (some k, c)) : c.rest ≠ [] := by
  intro hnil
  have hkind : c.kindAt? 0 = some k := congrArg Prod.fst (Except.ok.inj h)
  simp [Cursor.kindAt?, hnil] at hkind

theorem rest_ne_nil_of_check (h : check k c = .ok (true, c)) : c.rest ≠ [] := by
  intro hnil
  have hkind : (c.kindAt? 0 == some k) = true := congrArg Prod.fst (Except.ok.inj h)
  simp [Cursor.kindAt?, hnil] at hkind

theorem rest_ne_nil_of_peek? {t : Token} (h : peek? c = .ok (some t, c)) : c.rest ≠ [] := by
  intro hnil
  have hhead : c.rest.head? = some t := congrArg Prod.fst (Except.ok.inj h)
  simp [hnil] at hhead

theorem advance_reads (h : c.rest ≠ []) : ReadsAt advance c := Cursor.next_lt h

instance : Onward advance := ⟨fun _ c _ => Cursor.next_le c⟩

theorem take_reads (h : c.rest ≠ []) : ReadsAt take c :=
  .look fun _ _ => (advance_reads h).bind fun _ _ hd => .pure hd

instance : Onward take := ⟨fun _ => .step fun _ => .step fun _ => .pure⟩

theorem Ends.accept (ht : ∀ d, d < c → Ends (f true) d Q) (hf : Ends (f false) c Q) :
    Ends (accept k >>= f) c Q := by
  unfold Grammar.accept
  simp only [bind_assoc]
  refine .look fun ahead hahead => ?_
  split
  · next h =>
    simp only [bind_assoc, pure_bind]
    subst h
    exact (advance_reads (rest_ne_nil_of_check hahead)).bind fun _ d hd => ht d hd
  · simpa only [pure_bind] using hf

instance : Onward (accept k) where
  moves n c _ := by
    have h : Ends (accept k >>= pure) c fun _ d => d ≤ c :=
      .accept (fun d hd => .pure hd.le) (.pure le_rfl)
    simpa only [bind_pure] using h

/- A token that is accepted is the one that is read. -/
theorem Reads.accept (ht : Moves n (f true)) (hf : Reads (n + 1) (f false)) :
    Reads (n + 1) (Grammar.accept k >>= f) := by
  intro c hc
  refine .accept (fun d hd => ?_) (hf c hc)
  exact (ht d (Cursor.left_of_lt hd hc)).mono fun _ _ he => he.trans_lt hd

theorem Rounds.accept {f : Bool → Parser (Option α)} (ht : Moves m (f true))
    (hf : Rounds n (f false)) (hm : n ≤ m + 1) : Rounds n (Grammar.accept k >>= f) := by
  intro c hc
  refine .accept (fun d hd => ?_) (hf c hc)
  refine (ht d (Cursor.left_of_lt hd (by omega))).mono fun _ e he => ?_
  exact ⟨(he.trans_lt hd).le, fun _ => he.trans_lt hd⟩

theorem expect_reads (k : TokenKind) (expected : String) : Reads n (expect k expected) := by
  intro c _
  refine .look fun t ht => ?_
  cases t with
  | none => exact .fail _
  | some t =>
    dsimp only
    split
    · exact (advance_reads (rest_ne_nil_of_peek? ht)).bind fun _ _ hd => .pure hd
    · exact .fail _

instance (expected : String) : Onward (expect k expected) :=
  onward_of_reads fun _ => expect_reads k expected

end

section
variable {α : Type} {n : Nat} {step : α → Parser (Option α)} {item : Parser α}

/- As many rounds are allowed as there are tokens left, and the last one cannot go on. A loop stops
where a round declines. -/
theorem iterateFor_ends {E : Cursor → Prop}
    (h : ∀ a c, c.rest.length < n → Ends (step a) c fun o d =>
      d ≤ c ∧ (o.isSome = true → d < c) ∧ (o = none → E d))
    (ts : List Token) (a : α) (c : Cursor) (hts : c.rest.length ≤ ts.length)
    (hc : c.rest.length < n) : Ends (iterateFor step ts a) c fun _ d => d ≤ c ∧ E d := by
  induction ts generalizing a c with
  | nil =>
    refine (h a c hc).bind fun o d hd => ?_
    cases o with
    | none => exact .pure ⟨hd.1, hd.2.2 rfl⟩
    | some b =>
      have := (Cursor.lt_def.mp (hd.2.1 rfl)).2
      rw [List.length_nil] at hts
      omega
  | cons t ts ih =>
    refine (h a c hc).bind fun o d hd => ?_
    cases o with
    | none => exact .pure ⟨hd.1, hd.2.2 rfl⟩
    | some b =>
      have hlt := (Cursor.lt_def.mp (hd.2.1 rfl)).2
      rw [List.length_cons] at hts
      exact (ih b d (by omega) (by omega)).mono fun _ _ he => ⟨he.1.trans hd.1, he.2⟩

theorem iterate_ends {E : Cursor → Prop}
    (h : ∀ a c, c.rest.length < n → Ends (step a) c fun o d =>
      d ≤ c ∧ (o.isSome = true → d < c) ∧ (o = none → E d))
    (a : α) (c : Cursor) (hc : c.rest.length < n) :
    Ends (iterate step a) c fun _ d => d ≤ c ∧ E d :=
  iterateFor_ends h c.rest a c le_rfl hc

theorem Rounds.iterate (h : ∀ a, Rounds n (step a)) (a : α) : Moves n (Grammar.iterate step a) := by
  intro c hc
  refine (iterate_ends (E := fun _ => True) (fun a c hc => ?_) a c hc).mono fun _ _ hd => hd.1
  exact (h a c hc).mono fun _ _ hd => ⟨hd.1, hd.2, fun _ => trivial⟩

theorem Rounds.many {round : Parser (Option α)} (h : Rounds n round) :
    Moves n (Grammar.many round) := by
  refine (Rounds.iterate (fun found c hc => ?_) _).bind fun _ => .pure
  refine (h c hc).bind fun o d hd => .pure ?_
  simpa using hd

theorem Reads.sepBy1 (separator : TokenKind) (h : Reads n item) :
    Reads n (Grammar.sepBy1 separator item) := by
  refine h.bind fun first => Moves.bind (Rounds.many ?_) fun _ => .pure
  exact .accept (h.moves.bind fun _ => .pure) .stop n.le_succ

theorem Reads.commaList (close : TokenKind) (h : Reads n item) :
    Moves n (Grammar.commaList close item) := by
  refine (Rounds.iterate (fun found => .look fun closed => ?_) _).bind fun _ => .pure
  split
  · exact .stop
  · exact (h.bind fun _ => .step fun _ => .pure).round

end

section
variable {n : Nat}

theorem pastClose_lt {close : Symbol} {depth : Nat} {last : Location} {ts : List Token}
    {c : Cursor} (h : Cursor.pastClose close depth last ts = .ok c) :
    c.rest <:+ ts ∧ c.rest.length < ts.length := by
  induction ts generalizing depth last with
  | nil => simp [Cursor.pastClose] at h
  | cons t ts ih =>
    have hlater {depth : Nat} (h : Cursor.pastClose close depth t.finish ts = .ok c) :
        c.rest <:+ t :: ts ∧ c.rest.length < (t :: ts).length :=
      ⟨(ih h).1.trans (List.suffix_cons t ts), (ih h).2.trans (by simp)⟩
    unfold Cursor.pastClose at h
    split at h
    · exact hlater h
    · exact hlater h
    · split at h
      · cases h
        exact ⟨List.suffix_cons t ts, by simp⟩
      · cases h
    · exact hlater h

theorem pastClose_error {close : Symbol} {depth : Nat} {last : Location} {ts : List Token}
    {e : ParseError} (h : Cursor.pastClose close depth last ts = .error e) :
    e.cause ≠ .nesting := by
  fun_induction Cursor.pastClose close depth last ts with
  | case1 => cases h; simp [Cursor.unexpected]
  | case2 _ _ _ _ _ ih => exact ih h
  | case3 _ _ _ _ _ ih => exact ih h
  | case4 => cases h
  | case5 => cases h; simp [Cursor.unexpected]
  | case6 _ _ _ _ _ ih => exact ih h

theorem skipBalanced_reads (close : Symbol) : Reads n (skipBalanced close) := by
  intro c _
  refine .look fun d hd => ?_
  cases hd
  cases hpast : Cursor.pastClose close 0 c.last c.rest with
  | ok d => exact .of_ok rfl (Cursor.lt_def.mpr (pastClose_lt hpast))
  | error e => exact pastClose_error hpast

instance (close : Symbol) : Onward (skipBalanced close) :=
  onward_of_reads fun _ => skipBalanced_reads close

/- The loop stops at a semicolon, which is read after it. -/
theorem skipStatement_reads : Reads n skipStatement := by
  intro c hc
  refine (iterate_ends (E := fun d => d.rest ≠ []) (fun _ c _ => ?_) () c hc).bind fun _ d hd =>
    (advance_reads hd.2).mono fun _ _ he => he.trans_le hd.1
  refine .look fun k hk => ?_
  cases k with
  | none => exact .fail _
  | some k =>
    have hne := rest_ne_nil_of_kind? hk
    have hone : Ends (do advance; return some ()) c fun o d =>
        d ≤ c ∧ (o.isSome = true → d < c) ∧ (o = none → d.rest ≠ []) :=
      (advance_reads hne).bind fun _ d hd => .pure ⟨hd.le, fun _ => hd, by simp⟩
    have hbrackets (close : Symbol) : Ends (do advance; skipBalanced close; return some ()) c
        fun o d => d ≤ c ∧ (o.isSome = true → d < c) ∧ (o = none → d.rest ≠ []) := by
      refine (advance_reads hne).bind fun _ d hd => ?_
      refine (skipBalanced_reads close d d.rest.length.lt_succ_self).bind fun _ e he => .pure ?_
      exact ⟨(he.trans hd).le, fun _ => he.trans hd, by simp⟩
    split
    case h_1 => contradiction
    case h_2 => exact .pure ⟨le_rfl, by simp, fun _ => hne⟩
    case h_3 | h_4 | h_5 | h_6 => exact hbrackets _
    case h_7 => exact hone

instance : Onward skipAttributes where
  moves n := Rounds.iterate (fun _ => .accept (.step fun _ => .pure) .stop n.le_succ) ()

end

end ContractAudit.Grammar
