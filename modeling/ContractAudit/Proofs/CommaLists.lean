import ContractAudit.Proofs.Printing

/-! Reading lists. Main statement: items that are read back one by one are read back when they are
written with commas between them, whether the list leaves its closing word or takes it. -/
namespace ContractAudit.Grammar

section
variable {α : Type} {f : Bool → Parser α} {ws rest : List Word} {Q : α → Prop}

theorem Parses.accept_flag {s : Symbol} {b : Bool} (hws : ws.head?.map (·.1) ≠ some (.symbol s))
    (h : Parses (f b) ws rest Q) :
    Parses (Grammar.accept (.symbol s) >>= f) ((if b then [s.word] else []) ++ ws) rest Q := by
  cases b with
  | false => exact .accept_other hws h
  | true => exact .accept h

theorem Parses.map {β : Type} {p : Parser β} {g : β → α} {R : β → Prop} (h : Parses p ws rest R)
    (hg : ∀ b, R b → Q (g b)) : Parses (g <$> p) ws rest Q := by
  rw [map_eq_pure_bind]
  exact h.bind fun b hb => .pure (hg b hb)

end

section
variable {α : Type} {item : Parser α} {print : α → List Word} {strip : α → α} {x : α} {xs : List α}
  {close : Symbol} {found : List α} {more : Bool} {ws mid rest : List Word} {t : String}

/-- A comma or the closing word comes next. -/
def AtItemEnd (close : Symbol) (ws : List Word) : Prop :=
  ∃ w ws', ws = w :: ws' ∧ (w.1 = .symbol .comma ∨ w.1 = .symbol close)

theorem AtItemEnd.closed (h : AtItemEnd close ws) (hclose : isCloser (.symbol close) = true) :
    Closed ws := by
  obtain ⟨⟨k, x⟩, ws', rfl, rfl | rfl⟩ := h
  · exact .cons rfl
  · exact .cons hclose

/-- An item is read back where its end is ahead, and does not begin like its end. -/
structure ReadsBack (item : Parser α) (print : α → List Word) (strip : α → α) (close : Symbol)
    (x : α) : Prop where
  reads : ∀ rest, AtItemEnd close rest → Parses item (print x ++ rest) rest (strip · = strip x)
  begins : ∃ w ws, print x = w :: ws ∧ w.1 ≠ .symbol close ∧ w.1 ≠ .symbol .comma

theorem AtItemEnd.comma : AtItemEnd close (Symbol.comma.word :: ws) := ⟨_, _, rfl, .inl rfl⟩

theorem AtItemEnd.closing : AtItemEnd close ((.symbol close, t) :: ws) := ⟨_, _, rfl, .inr rfl⟩

theorem acceptComma_close (hclose : close ≠ .comma) :
    Parses (accept Symbol.comma) ((.symbol close, t) :: rest) ((.symbol close, t) :: rest)
      (· = false) := by
  have h : Parses (accept Symbol.comma >>= Pure.pure) ((.symbol close, t) :: rest)
      ((.symbol close, t) :: rest) (· = false) :=
    .accept_other (by simpa using hclose) (.pure rfl)
  rwa [bind_pure] at h

theorem acceptComma_comma :
    Parses (accept Symbol.comma) (Symbol.comma.word :: ws) ws (· = true) := by
  have h : Parses (accept Symbol.comma >>= Pure.pure) (Symbol.comma.word :: ws) ws (· = true) :=
    .accept (.pure rfl)
  rwa [bind_pure] at h

/-- Rounds that read an item and the comma after it read the whole list, whatever the words `last`
are that the round at the closing word leaves. -/
theorem rounds_readBack {round : List α × Bool → Parser (Option (List α × Bool))}
    {last : List Word} (hlast : last.length ≤ rest.length + 1)
    (hxs : ∀ x ∈ xs, ReadsBack item print strip close x)
    (hmore : ∀ x found ws, ReadsBack item print strip close x →
      Parses (round (found, true)) (print x ++ Symbol.comma.word :: ws) ws
        fun o => ∃ s, o = some s ∧ s.1.map strip = strip x :: found.map strip ∧ s.2 = true)
    (hend : ∀ x found, ReadsBack item print strip close x →
      Parses (round (found, true)) (print x ++ (.symbol close, t) :: rest) last
        fun o => ∃ s, o = some s ∧ s.1.map strip = strip x :: found.map strip ∧ s.2 = false)
    (hempty : ∀ found, Parses (iterate round (found, true)) ((.symbol close, t) :: rest) last
      (·.1 = found))
    (hstop : ∀ found, Parses (round (found, false)) last last (· = none)) :
    Parses (iterate round (found, true)) (commas (xs.map print) ++ (.symbol close, t) :: rest) last
      fun s => s.1.map strip = (xs.map strip).reverse ++ found.map strip := by
  induction xs generalizing found with
  | nil => exact (hempty found).mono fun s hs => by rw [hs]; rfl
  | cons x xs ih =>
    have hx := hxs x List.mem_cons_self
    obtain ⟨w, ws, hw, -⟩ := hx.begins
    cases xs with
    | nil =>
      rw [List.map_singleton, commas_one]
      refine .iterate_round (hend x found hx) ?_ ?_
      · simp [hw]
        omega
      · rintro ⟨found', _⟩ ⟨hfound, rfl⟩
        refine (Parses.iterate_stop (hstop found')).mono ?_
        rintro _ rfl
        simpa using hfound
    | cons y ys =>
      rw [List.map_cons, List.map_cons, commas_cons, List.append_assoc, List.cons_append]
      refine .iterate_round (hmore x found _ hx) ?_ ?_
      · simp [hw]
        omega
      · rintro ⟨found', _⟩ ⟨hfound, rfl⟩
        refine (ih fun z hz => hxs z (List.mem_cons_of_mem _ hz)).mono fun s hs => ?_
        rw [hs, hfound]
        simp

/-- One round of a list whose closing word stays. -/
def listRound (close : TokenKind) (item : Parser α) (s : List α × Bool) :
    Parser (Option (List α × Bool)) := do
  let (found, more) := s
  if !more || (← check close) then return none
  let a ← item
  return some (a :: found, ← accept Symbol.comma)

theorem commaList_eq (close : TokenKind) (item : Parser α) : commaList close item = do
    let found ← iterate (listRound close item) ([], true)
    return found.1.reverse := rfl

theorem listRound_item (hx : ReadsBack item print strip close x) (hmid : AtItemEnd close mid)
    (hcomma : Parses (accept Symbol.comma) mid rest (· = more)) :
    Parses (listRound (.symbol close) item (found, true)) (print x ++ mid) rest
      fun o => ∃ s, o = some s ∧ s.1.map strip = strip x :: found.map strip ∧ s.2 = more := by
  obtain ⟨w, ws, hw, hclose, -⟩ := hx.begins
  unfold listRound
  refine .check ?_
  have hno : ((print x ++ mid).head?.map (·.1) == some (.symbol close)) = false := by
    simpa [hw] using hclose
  rw [hno]
  refine (hx.reads mid hmid).bind fun a ha => hcomma.bind fun b hb => .pure ⟨_, rfl, ?_, hb⟩
  rw [List.map_cons, ha]

theorem listRound_stops (h : more = false ∨ ws.head?.map (·.1) = some (.symbol close)) :
    Parses (listRound (.symbol close) item (found, more)) ws ws (· = none) := by
  unfold listRound
  refine .check ?_
  have hyes : (!more || ws.head?.map (·.1) == some (.symbol close)) = true := by
    rcases h with rfl | h
    · rfl
    · rw [h, beq_self_eq_true, Bool.or_true]
  simp only [hyes]
  exact .pure rfl

theorem listRounds (hcomma : close ≠ .comma)
    (hxs : ∀ x ∈ xs, ReadsBack item print strip close x) :
    Parses (iterate (listRound (.symbol close) item) (found, true))
      (commas (xs.map print) ++ (.symbol close, t) :: rest) ((.symbol close, t) :: rest)
      fun s => s.1.map strip = (xs.map strip).reverse ++ found.map strip := by
  refine rounds_readBack (Nat.le_refl _) hxs ?_ ?_ ?_ ?_
  · exact fun x found ws hx => listRound_item hx .comma acceptComma_comma
  · exact fun x found hx => listRound_item hx .closing (acceptComma_close hcomma)
  · exact fun found =>
      (Parses.iterate_stop (listRound_stops (.inr rfl))).mono (by rintro _ rfl; rfl)
  · exact fun found => listRound_stops (.inl rfl)

theorem commaList_readsBack (hcomma : close ≠ .comma)
    (hxs : ∀ x ∈ xs, ReadsBack item print strip close x) :
    Parses (commaList (.symbol close) item) (commas (xs.map print) ++ (.symbol close, t) :: rest)
      ((.symbol close, t) :: rest) fun as => as.map strip = xs.map strip := by
  rw [commaList_eq]
  refine (listRounds hcomma hxs).bind fun s hs => .pure ?_
  rw [List.map_reverse, hs]
  simp

/-- One round of a list whose closing word is read as well. -/
def arrayRound (close : TokenKind) (item : Parser α) (s : List α × Bool) :
    Parser (Option (List α × Bool)) := do
  let (found, more) := s
  if !more then return none
  if ← accept close then return some (found, false)
  if ← accept Symbol.comma then return some (found, true)
  let i ← item
  if ← accept Symbol.comma then return some (i :: found, true)
  let _ ← expect close "end of array"
  return some (i :: found, false)

theorem arrayItems_eq (g : Nested) (close : TokenKind) : arrayItems g close = do
    let found ← iterate (arrayRound close (Grammar.item g)) ([], true)
    return found.1.reverse := rfl

theorem arrayRound_item (hx : ReadsBack item print strip close x) (hmid : AtItemEnd close mid)
    (hcomma : Parses (accept Symbol.comma) mid ws (· = more))
    (hnext : more = true ∧ ws = rest ∨ more = false ∧ ∃ t, ws = (.symbol close, t) :: rest) :
    Parses (arrayRound (.symbol close) item (found, true)) (print x ++ mid) rest
      fun o => ∃ s, o = some s ∧ s.1.map strip = strip x :: found.map strip ∧ s.2 = more := by
  obtain ⟨w, vs, hw, hne, hne'⟩ := hx.begins
  unfold arrayRound
  refine .accept_other (by simpa [hw] using hne) (.accept_other (by simpa [hw] using hne') ?_)
  refine (hx.reads mid hmid).bind fun a ha => hcomma.bind ?_
  rcases hnext with ⟨rfl, rfl⟩ | ⟨rfl, t, rfl⟩
  · rintro _ rfl
    exact .pure ⟨_, rfl, by rw [List.map_cons, ha], rfl⟩
  · rintro _ rfl
    exact .expect (.pure ⟨_, rfl, by rw [List.map_cons, ha], rfl⟩)

theorem arrayRound_stops :
    Parses (arrayRound (.symbol close) item (found, false)) ws ws (· = none) :=
  .pure rfl

theorem arrayRounds (hcomma : close ≠ .comma)
    (hxs : ∀ x ∈ xs, ReadsBack item print strip close x) :
    Parses (iterate (arrayRound (.symbol close) item) (found, true))
      (commas (xs.map print) ++ (.symbol close, t) :: rest) rest
      fun s => s.1.map strip = (xs.map strip).reverse ++ found.map strip := by
  refine rounds_readBack (Nat.le_succ _) hxs ?_ ?_ ?_ fun found => arrayRound_stops
  · exact fun x found ws hx => arrayRound_item hx .comma acceptComma_comma (.inl ⟨rfl, rfl⟩)
  · exact fun x found hx =>
      arrayRound_item hx .closing (acceptComma_close hcomma) (.inr ⟨rfl, t, rfl⟩)
  · -- The closing word alone takes a round of its own, which keeps what was found.
    intro found
    refine .iterate_round (S := (· = (found, false))) (.accept (.pure ⟨_, rfl, rfl⟩))
      (Nat.lt_succ_self _) ?_
    rintro _ rfl
    exact (Parses.iterate_stop arrayRound_stops).mono (by rintro _ rfl; rfl)

end

end ContractAudit.Grammar
