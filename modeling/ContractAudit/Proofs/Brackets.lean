import ContractAudit.Proofs.Words

/-! Skipping over brackets. Main statement: past properly nested tokens, whatever they are, skipping
to a closing bracket ends just behind it, and skipping a statement just behind its semicolon. -/
namespace ContractAudit.Grammar

open Source

variable {w inside : List Token} {t o c : Token} {s close : Symbol}

/-- The bracket that closes what a token of this kind opens. -/
def closer? : TokenKind → Option Symbol
  | .symbol .lparen => some .rparen
  | .symbol .lbracket | .symbol .attributeStart => some .rbracket
  | .symbol .lbrace => some .rbrace
  | _ => none

/-- The brackets that close. -/
def closers : List Symbol := [.rparen, .rbracket, .rbrace]

/-- The second token closes what the first one opens. -/
def Pair (o c : Token) : Prop := ∃ s, closer? o.kind = some s ∧ c.kind = .symbol s

/-- The token is no bracket. -/
def Ordinary (t : Token) : Prop := closer? t.kind = none ∧ ∀ s ∈ closers, t.kind ≠ .symbol s

/-- Properly nested tokens: every bracket is closed by the one that belongs to it, and what stands
between the two is properly nested itself. -/
inductive Bracketed : List Token → Prop where
  | nil : Bracketed []
  | plain {t : Token} {w : List Token} (ht : Ordinary t) (hw : Bracketed w) : Bracketed (t :: w)
  | group {o c : Token} {inside w : List Token} (hpair : Pair o c) (hinside : Bracketed inside)
      (hw : Bracketed w) : Bracketed (o :: (inside ++ c :: w))

/-- The token stands in `w` outside all brackets: what comes before it is properly nested. -/
def Outside (w : List Token) (t : Token) : Prop := ∃ u v, w = u ++ t :: v ∧ Bracketed u

theorem Outside.plain (ho : Ordinary o) (h : Outside w t) : Outside (o :: w) t := by
  obtain ⟨u, v, rfl, hu⟩ := h
  exact ⟨o :: u, v, rfl, hu.plain ho⟩

theorem Outside.group (hpair : Pair o c) (hinside : Bracketed inside) (h : Outside w t) :
    Outside (o :: (inside ++ c :: w)) t := by
  obtain ⟨u, v, rfl, hu⟩ := h
  exact ⟨o :: (inside ++ c :: u), v, by simp, hinside.group hpair hu⟩

theorem closers_cases (h : s ∈ closers) : s = .rparen ∨ s = .rbracket ∨ s = .rbrace := by
  simpa [closers] using h

theorem closer?_mem (h : closer? t.kind = some s) : s ∈ closers := by
  unfold closer? at h
  split at h <;> cases h <;> decide

/-- Do the tokens close the brackets `pending`, innermost first, and besides them only what they
have opened themselves? -/
def settles (pending : List Symbol) : List Token → Bool
  | [] => pending.isEmpty
  | t :: ts =>
    match closer? t.kind with
    | some s => settles (s :: pending) ts
    | none =>
      match closers.find? (t.kind = .symbol ·), pending with
      | none, _ => settles pending ts
      | some _, [] => false
      | some s, s' :: later => s = s' && settles later ts

/-- The tokens close the brackets `pending`, with properly nested ones between them. -/
def Settles : List Symbol → List Token → Prop
  | [], w => Bracketed w
  | s :: later, w =>
    ∃ u c v, w = u ++ c :: v ∧ Bracketed u ∧ c.kind = .symbol s ∧ Settles later v

section
variable {pending : List Symbol}

theorem Settles.plain (ht : Ordinary t) (h : Settles pending w) : Settles pending (t :: w) := by
  cases pending with
  | nil => exact Bracketed.plain ht h
  | cons s later =>
    obtain ⟨u, c, v, rfl, hu, hc, hv⟩ := h
    exact ⟨t :: u, c, v, rfl, hu.plain ht, hc, hv⟩

theorem Settles.group (hpair : Pair o c) (hinside : Bracketed inside) (h : Settles pending w) :
    Settles pending (o :: (inside ++ c :: w)) := by
  cases pending with
  | nil => exact Bracketed.group hpair hinside h
  | cons s later =>
    obtain ⟨u, d, v, rfl, hu, hd, hv⟩ := h
    exact ⟨o :: (inside ++ c :: u), d, v, by simp, hinside.group hpair hu, hd, hv⟩

theorem settles_sound (h : settles pending w = true) : Settles pending w := by
  fun_induction settles pending w with
  | case1 pending =>
    obtain rfl := List.isEmpty_iff.mp h
    exact Bracketed.nil
  | case2 pending t ts s hopens ih =>
    obtain ⟨u, c, v, rfl, hu, hc, hv⟩ := ih h
    exact hv.group ⟨s, hopens, hc⟩ hu
  | case3 pending t ts hopens hnone ih =>
    exact (ih h).plain ⟨hopens, by simpa using hnone⟩
  | case4 => cases h
  | case5 t ts hopens s s' later hsome ih =>
    obtain ⟨rfl, hlater⟩ : s = s' ∧ settles later ts = true := by simpa using h
    exact ⟨[], t, ts, rfl, .nil, by simpa using List.find?_some hsome, ih hlater⟩

theorem settles_plain (ht : Ordinary t) (ts : List Token) :
    settles pending (t :: ts) = settles pending ts := by
  have hnone : closers.find? (t.kind = .symbol ·) = none := by simpa using ht.2
  simp only [settles, ht.1, hnone]

theorem settles_closer (hs : s ∈ closers) (hc : c.kind = .symbol s) (ts : List Token) :
    settles (s :: pending) (c :: ts) = settles pending ts := by
  rcases closers_cases hs with rfl | rfl | rfl <;> simp [settles, closer?, closers, hc]

theorem settles_bracketed (hw : Bracketed w) (pending : List Symbol) (ts : List Token) :
    settles pending (w ++ ts) = settles pending ts := by
  induction hw generalizing pending ts with
  | nil => rfl
  | plain ht _ ih => rw [List.cons_append, settles_plain ht, ih]
  | @group o c inside w hpair _ _ ihinside ih =>
    obtain ⟨s, hopens, hcloses⟩ := hpair
    calc settles pending (o :: (inside ++ c :: w) ++ ts)
      _ = settles (s :: pending) (inside ++ (c :: (w ++ ts))) := by simp [settles, hopens]
      _ = settles pending (w ++ ts) := by
        rw [ihinside, settles_closer (closer?_mem hopens) hcloses]
      _ = settles pending ts := ih pending ts

end

theorem bracketed_iff_settles : Bracketed w ↔ settles [] w = true := by
  refine ⟨fun hw => ?_, fun h => settles_sound h⟩
  have h := settles_bracketed hw [] []
  rwa [List.append_nil] at h

instance (w : List Token) : Decidable (Bracketed w) := decidable_of_iff _ bracketed_iff_settles.symm

/-- The place just past the last of the tokens. -/
def placeAfter (last : Location) (w : List Token) : Location := w.foldl (fun _ t => t.finish) last

theorem placeAfter_group (last : Location) (o c : Token) (inside w : List Token) :
    placeAfter last (o :: (inside ++ c :: w)) = placeAfter c.finish w := by
  simp only [placeAfter, List.foldl_cons, List.foldl_append]

theorem bracket_of_opener (h : closer? t.kind = some s) : Bracket.of t.kind = .opens := by
  unfold closer? at h
  split at h <;> simp_all [Bracket.of]

theorem bracket_of_closer (hs : s ∈ closers) (h : t.kind = .symbol s) :
    Bracket.of t.kind = .closes := by
  rw [h]
  rcases closers_cases hs with rfl | rfl | rfl <;> rfl

theorem bracket_of_plain (h : Ordinary t) : Bracket.of t.kind = .neither := by
  obtain ⟨hopens, hcloses⟩ := h
  simp only [closers, List.forall_mem_cons] at hcloses
  unfold Bracket.of
  split <;> simp_all [closer?]

section
variable {depth : Nat} {last : Location} {ts : List Token}

theorem pastClose_opens (h : Bracket.of t.kind = .opens) :
    Cursor.pastClose close depth last (t :: ts) =
      Cursor.pastClose close (depth + 1) t.finish ts := by
  simp only [Cursor.pastClose, h]

theorem pastClose_closes (h : Bracket.of t.kind = .closes) :
    Cursor.pastClose close (depth + 1) last (t :: ts) =
      Cursor.pastClose close depth t.finish ts := by
  simp only [Cursor.pastClose, h]

theorem pastClose_neither (h : Bracket.of t.kind = .neither) :
    Cursor.pastClose close depth last (t :: ts) = Cursor.pastClose close depth t.finish ts := by
  simp only [Cursor.pastClose, h]

theorem pastClose_closer (hclose : close ∈ closers) (hc : c.kind = .symbol close) :
    Cursor.pastClose close 0 last (c :: ts) = .ok ⟨ts, c.finish⟩ := by
  simp only [Cursor.pastClose, bracket_of_closer hclose hc]
  rw [if_pos hc]

end

/- One counter serves all sorts of brackets: properly nested tokens leave it where it was. -/
theorem pastClose_bracketed (hw : Bracketed w) (close : Symbol) (depth : Nat) (last : Location)
    (ts : List Token) : Cursor.pastClose close depth last (w ++ ts) =
      Cursor.pastClose close depth (placeAfter last w) ts := by
  induction hw generalizing depth last ts with
  | nil => rfl
  | @plain t w ht _ ih =>
    rw [List.cons_append, pastClose_neither (bracket_of_plain ht)]
    exact ih depth t.finish ts
  | @group o c inside w hpair _ _ ihinside ih =>
    obtain ⟨s, hopens, hcloses⟩ := hpair
    have hcloser := bracket_of_closer (closer?_mem hopens) hcloses
    calc Cursor.pastClose close depth last (o :: (inside ++ c :: w) ++ ts)
      _ = Cursor.pastClose close (depth + 1) o.finish (inside ++ (c :: w ++ ts)) := by
        rw [List.cons_append, pastClose_opens (bracket_of_opener hopens), List.append_assoc]
      _ = Cursor.pastClose close depth c.finish (w ++ ts) := by
        rw [ihinside, List.cons_append, pastClose_closes hcloser]
      _ = Cursor.pastClose close depth (placeAfter last (o :: (inside ++ c :: w))) ts := by
        rw [ih, placeAfter_group]

theorem skipBalanced_bracketed (hw : Bracketed w) (hclose : close ∈ closers)
    (hc : c.kind = .symbol close) (rest : List Token) (last : Location) :
    skipBalanced close ⟨w ++ c :: rest, last⟩ = .ok ((), ⟨rest, c.finish⟩) := by
  have hpast : Cursor.pastClose close 0 last (w ++ c :: rest) = .ok ⟨rest, c.finish⟩ := by
    rw [pastClose_bracketed hw, pastClose_closer hclose hc]
  have hget : (get : Parser Cursor) ⟨w ++ c :: rest, last⟩ =
      .ok (⟨w ++ c :: rest, last⟩, ⟨w ++ c :: rest, last⟩) := rfl
  simp only [skipBalanced, bind, StateT.bind, hget, Except.bind, hpast]
  rfl

/-- A round of skipping a statement: a whole group of brackets or one other token is read, but for a
semicolon. -/
def statementRound : Parser (Option Unit) := do
  match ← kind? with
  | none => fail "';'"
  | some k =>
    match closer? k with
    | some close =>
      advance
      skipBalanced close
      return some ()
    | none =>
      if k = .symbol .semicolon then return none
      advance
      return some ()

theorem skipStatement_eq :
    skipStatement = (do iterate (fun () => statementRound) (); advance) := by
  unfold skipStatement statementRound
  congr 2
  funext _
  congr 1
  funext k
  cases k with
  | none => rfl
  | some k =>
    unfold closer?
    split <;> simp_all

section
variable (rest : List Token) (last : Location)

theorem kind?_run (t : Token) :
    kind? ⟨t :: rest, last⟩ = .ok (some t.kind, ⟨t :: rest, last⟩) := rfl

theorem statementRound_semicolon (h : t.kind = .symbol .semicolon) :
    statementRound ⟨t :: rest, last⟩ = .ok (none, ⟨t :: rest, last⟩) := by
  simp only [statementRound, bind, StateT.bind, kind?_run, Except.bind, h, closer?, if_true]
  rfl

theorem statementRound_plain (ht : Ordinary t) (h : t.kind ≠ .symbol .semicolon) :
    statementRound ⟨t :: rest, last⟩ = .ok (some (), ⟨rest, t.finish⟩) := by
  simp only [statementRound, bind, StateT.bind, kind?_run, Except.bind, ht.1, h, if_false]
  rfl

theorem statementRound_group (hpair : Pair o c) (hinside : Bracketed inside) :
    statementRound ⟨o :: (inside ++ c :: rest), last⟩ = .ok (some (), ⟨rest, c.finish⟩) := by
  obtain ⟨s, hopens, hcloses⟩ := hpair
  have hadvance : advance ⟨o :: (inside ++ c :: rest), last⟩ =
      .ok ((), ⟨inside ++ c :: rest, o.finish⟩) := rfl
  have hskip := skipBalanced_bracketed hinside (closer?_mem hopens) hcloses rest o.finish
  simp only [statementRound, bind, StateT.bind, kind?_run, Except.bind, hopens, hadvance, hskip]
  rfl

/- The induction is along the groups. Each round reads a token at least, so as many rounds as there
are tokens are enough. -/
theorem rounds_bracketed (hw : Bracketed w) (ht : t.kind = .symbol .semicolon)
    (houtside : ∀ u, Outside w u → u.kind ≠ .symbol .semicolon) :
    iterateFor (fun () => statementRound) w () ⟨w ++ t :: rest, last⟩ =
      .ok ((), ⟨t :: rest, placeAfter last w⟩) := by
  induction hw generalizing last with
  | nil =>
    rw [iterateFor_nil_run, List.nil_append, statementRound_semicolon rest last ht]
    rfl
  | @plain o w ho _ ih =>
    have hother : o.kind ≠ .symbol .semicolon := houtside o ⟨[], w, rfl, .nil⟩
    rw [iterateFor_cons_run, List.cons_append, statementRound_plain _ _ ho hother]
    exact ih o.finish fun u hu => houtside u (hu.plain ho)
  | @group o c inside w hpair hinside _ _ ih =>
    have hlater := ih c.finish fun u hu => houtside u (hu.group hpair hinside)
    have hlength : w.length ≤ (inside ++ c :: w).length := by
      rw [List.length_append, List.length_cons]
      omega
    rw [iterateFor_cons_run, List.cons_append, List.append_assoc, List.cons_append,
      statementRound_group _ _ hpair hinside, placeAfter_group]
    exact iterateFor_mono hlater hlength

theorem skipStatement_bracketed (hw : Bracketed w) (ht : t.kind = .symbol .semicolon)
    (houtside : ∀ u, Outside w u → u.kind ≠ .symbol .semicolon) :
    skipStatement ⟨w ++ t :: rest, last⟩ = .ok ((), ⟨rest, t.finish⟩) := by
  have hrounds : iterateFor (fun () => statementRound) (w ++ t :: rest) ()
      ⟨w ++ t :: rest, last⟩ = .ok ((), ⟨t :: rest, placeAfter last w⟩) :=
    iterateFor_mono (rounds_bracketed rest last hw ht houtside) (by simp)
  rw [skipStatement_eq]
  change (iterateFor (fun () => statementRound) (w ++ t :: rest) () ⟨w ++ t :: rest, last⟩ >>=
    fun r => advance r.2) = _
  rw [hrounds]
  rfl

/-- Skipping over properly nested tokens, whatever they are. To a closing bracket of any sort, it
ends just behind that bracket; to the end of a statement, just behind the semicolon, if none stands
outside the brackets before it. -/
theorem skips_end_behind (hw : Bracketed w) :
    (∀ close ∈ closers, ∀ c : Token, c.kind = .symbol close →
      skipBalanced close ⟨w ++ c :: rest, last⟩ = .ok ((), ⟨rest, c.finish⟩)) ∧
    (∀ s : Token, s.kind = .symbol .semicolon →
      (∀ t, Outside w t → t.kind ≠ .symbol .semicolon) →
      skipStatement ⟨w ++ s :: rest, last⟩ = .ok ((), ⟨rest, s.finish⟩)) :=
  ⟨fun _ hclose _ hc => skipBalanced_bracketed hw hclose hc rest last,
    fun _ hs houtside => skipStatement_bracketed rest last hw hs houtside⟩

end

namespace Sample

/-- `([;]) #[{;}]`, with semicolons inside the brackets only. -/
def skipped : List Token :=
  [(.symbol .lparen, "("), (.symbol .lbracket, "["), (.symbol .semicolon, ";"),
    (.symbol .rbracket, "]"), (.symbol .rparen, ")"), (.symbol .attributeStart, "#["),
    (.symbol .lbrace, "\x7b"), (.symbol .semicolon, ";"), (.symbol .rbrace, "\x7d"),
    (.symbol .rbracket, "]")].map Word.token

def brace : Token := Word.token (.symbol .rbrace, "\x7d")

def semicolon : Token := Word.token (.symbol .semicolon, ";")

theorem skipped_outside (t : Token) (h : Outside skipped t) : t.kind ≠ .symbol .semicolon := by
  obtain ⟨u, v, hsplit, hu⟩ := h
  have hall : ∀ n < skipped.length, Bracketed (skipped.take n) →
      skipped[n]?.map (·.kind) ≠ some (.symbol .semicolon) := by decide
  have hlt : u.length < skipped.length := by
    rw [hsplit]
    simp
  have ht := hall u.length hlt (by rwa [hsplit, List.take_left])
  rw [hsplit] at ht
  simpa using ht

end Sample

theorem skips_end_behind_sample : Bracketed Sample.skipped ∧
    skipBalanced .rbrace ⟨Sample.skipped ++ Sample.brace :: Sample.skipped, Location.start⟩ =
      .ok ((), ⟨Sample.skipped, Sample.brace.finish⟩) ∧
    skipStatement ⟨Sample.skipped ++ Sample.semicolon :: Sample.skipped, Location.start⟩ =
      .ok ((), ⟨Sample.skipped, Sample.semicolon.finish⟩) := by
  have hskipped : Bracketed Sample.skipped := by decide
  have hskips := skips_end_behind Sample.skipped Location.start hskipped
  exact ⟨hskipped, hskips.1 .rbrace (by decide) _ rfl, hskips.2 _ rfl Sample.skipped_outside⟩

end ContractAudit.Grammar
