import ContractAudit.Proofs.DocPlaces
import ContractAudit.Proofs.Outline
import ContractAudit.Proofs.Progress

/-! Where parsers lay the nodes of a tree. Main statements: the tokens of a source lie one after the
other; what a sequence of steps finds lies between the place where it began and the end of the last
token that it read; and a span over such a stretch is that of a node around all that was found. -/
namespace ContractAudit

open Source

theorem Source.Location.offset_advanceOver (l : Location) (cs : List Char) :
    (l.advanceOver cs).offset = l.offset + (String.ofList cs).utf8ByteSize := by
  induction cs generalizing l with
  | nil => rfl
  | cons c cs ih =>
    have hc : (l.advance c).offset = l.offset + c.utf8Size := by
      unfold Location.advance
      split <;> rfl
    change ((l.advance c).advanceOver cs).offset = _
    rw [ih, hc, String.ofList_cons, String.utf8ByteSize_append, String.utf8ByteSize_singleton,
      Nat.add_assoc]

theorem Token.location_le_finish (t : Token) : t.location.offset ≤ t.finish.offset := by
  rw [Token.finish, Location.offset_advanceOver]
  omega

namespace Grammar

/-- Tokens that lie one after the other, from an offset on. -/
def InOrder : Nat → List Token → Prop
  | _, [] => True
  | n, t :: ts => n ≤ t.location.offset ∧ InOrder t.finish.offset ts

theorem InOrder.mono {m n : Nat} {ts : List Token} (h : InOrder n ts) (hm : m ≤ n) :
    InOrder m ts := by
  cases ts with
  | nil => trivial
  | cons t ts => exact ⟨hm.trans h.1, h.2⟩

/- The token of a close tag is shorter than the tag. -/
theorem token_finish_le {p : Piece} {t : Token} (hp : p.text ≠ []) (h : p.token = .ok t) :
    t.location = p.location ∧
      t.finish.offset ≤ ((p.location.advanceOver p.text).advanceOver p.skipped).offset := by
  have htext : 1 ≤ (String.ofList p.text).utf8ByteSize := by
    obtain ⟨c, cs, hcs⟩ := List.exists_cons_of_ne_nil hp
    have hc := c.utf8Size_pos
    rw [hcs, String.ofList_cons, String.utf8ByteSize_append, String.utf8ByteSize_singleton]
    omega
  unfold Piece.token at h
  split at h
  case h_1 | h_2 =>
    cases h
    simp only [Token.finish, Location.offset_advanceOver, String.toList_ofList]
    exact ⟨trivial, by omega⟩
  case h_3 =>
    cases h
    have hone : (String.ofList ";".toList).utf8ByteSize = 1 := by decide
    simp only [Token.finish, Location.offset_advanceOver, hone]
    exact ⟨trivial, by omega⟩
  case h_4 => cases h

theorem inOrder_ofCode {doc : Option String} {l : Location} {cs : List Char} {ts : List Token}
    (h : Token.ofPieces doc (Piece.ofCode l cs) = .ok ts) : InOrder l.offset ts := by
  fun_induction Piece.ofCode l cs generalizing doc ts with
  | case1 =>
    cases h
    trivial
  | case2 l c cs scanned text rest =>
    rename_i n ih
    have hafter : l.offset ≤ ((l.advanceOver text).advanceOver (rest.take n)).offset := by
      simp only [Location.offset_advanceOver]
      omega
    obtain ⟨t, ht, ⟨_, hts⟩ | ⟨us, hus, rfl⟩⟩ := Token.ofPieces_cases h
    · exact (ih hts).mono hafter
    · obtain ⟨hlocation, hfinish⟩ := token_finish_le (List.cons_ne_nil _ _) ht
      exact ⟨(congrArg Location.offset hlocation).ge, (ih hus).mono hfinish⟩

theorem inOrder_ofSource {source : String} {ts : List Token} (h : Token.ofSource source = .ok ts) :
    InOrder 0 ts :=
  (inOrder_ofCode h).mono (Nat.zero_le _)

/-- The tokens ahead lie one after the other, past what was read. -/
def Cursor.Laid (c : Cursor) : Prop := InOrder c.last.offset c.rest

theorem ofTokens_laid {n : Nat} {ts : List Token} (h : InOrder n ts) :
    (Cursor.ofTokens ts).Laid := by
  cases ts with
  | nil => trivial
  | cons t ts => exact ⟨le_rfl, h.2⟩

/-- A cursor that has gone on from another. -/
structure Goes (c d : Cursor) : Prop where
  laid : d.Laid
  last : c.last.offset ≤ d.last.offset
  here : c.here.offset ≤ d.here.offset

section
variable {c d e : Cursor}

theorem Cursor.Laid.last_le_here (h : c.Laid) : c.last.offset ≤ c.here.offset := by
  obtain ⟨rest, last⟩ := c
  cases rest with
  | nil => exact le_rfl
  | cons t ts => exact h.1

theorem Goes.refl (h : c.Laid) : Goes c c := ⟨h, le_rfl, le_rfl⟩

theorem Goes.trans (h : Goes c d) (h' : Goes d e) : Goes c e :=
  ⟨h'.laid, h.last.trans h'.last, h.here.trans h'.here⟩

/- At the end the next place is the end itself, so even there it is not past what was read. -/
theorem Cursor.Laid.next (h : c.Laid) : Goes c c.next ∧ c.here.offset ≤ c.next.last.offset := by
  obtain ⟨rest, last⟩ := c
  cases rest with
  | nil => exact ⟨.refl h, le_rfl⟩
  | cons t ts =>
    have hread : t.location.offset ≤ t.finish.offset := t.location_le_finish
    have hlaid : Cursor.Laid ⟨ts, t.finish⟩ := h.2
    exact ⟨⟨hlaid, h.1.trans hread, hread.trans hlaid.last_le_here⟩, hread⟩

end

/-- The nodes are well nested and lie from `start` to `finish`. -/
def Fits (start finish : Nat) (os : List Outline) : Prop :=
  ∀ o ∈ os, o.WellNested ∧ start ≤ o.span.start.offset ∧ o.span.finish.offset ≤ finish

namespace Fits
variable {start start' finish finish' : Nat} {os os' : List Outline} {o : Outline} {s : Span}

theorem nil : Fits start finish [] := fun _ h => absurd h List.not_mem_nil

theorem mono (h : Fits start finish os) (hs : start' ≤ start) (hf : finish ≤ finish') :
    Fits start' finish' os := by
  intro o ho
  obtain ⟨hnested, hstart, hfinish⟩ := h o ho
  exact ⟨hnested, hs.trans hstart, hfinish.trans hf⟩

theorem subset (h : Fits start finish os) (hsub : os' ⊆ os) : Fits start finish os' :=
  fun o ho => h o (hsub ho)

theorem append (h : Fits start finish os) (h' : Fits start finish os') :
    Fits start finish (os ++ os') :=
  fun o ho => (List.mem_append.mp ho).elim (h o) (h' o)

theorem le (h : Fits start finish os) (hne : os ≠ []) : start ≤ finish := by
  obtain ⟨o, ho⟩ := List.exists_mem_of_ne_nil os hne
  obtain ⟨hnested, hstart, hfinish⟩ := h o ho
  cases hnested with
  | node ordered => exact hstart.trans (ordered.trans hfinish)

/- A node over the whole stretch is around all that was found in it. -/
theorem node (h : Fits s.start.offset s.finish.offset os) (hs : s.start.offset ≤ s.finish.offset) :
    (Outline.node s os).WellNested :=
  .node hs (fun o ho => (h o ho).2) fun o ho => (h o ho).1

theorem singleton_node (h : Fits s.start.offset s.finish.offset os)
    (hs : s.start.offset ≤ s.finish.offset) (hstart : start ≤ s.start.offset)
    (hfinish : s.finish.offset ≤ finish) : Fits start finish [.node s os] := by
  intro o ho
  rw [List.mem_singleton.mp ho]
  exact ⟨h.node hs, hstart, hfinish⟩

theorem parts (h : Fits start finish [.node s os]) : Fits start finish os := by
  obtain ⟨hnested, hstart, hfinish⟩ := h _ List.mem_cons_self
  cases hnested with
  | node _ within parts_nested =>
    exact fun o ho => ⟨parts_nested o ho, hstart.trans (within o ho).1,
      (within o ho).2.trans hfinish⟩

/- A node with the span of its one part. -/
theorem wrap (h : Fits start finish [o]) : Fits start finish [.node o.span [o]] := by
  obtain ⟨hnested, hstart, hfinish⟩ := h o List.mem_cons_self
  have hordered : o.span.start.offset ≤ o.span.finish.offset := by
    cases hnested with
    | node ordered => exact ordered
  refine singleton_node ?_ hordered hstart hfinish
  intro o' ho'
  rw [List.mem_singleton.mp ho']
  exact ⟨hnested, le_rfl, le_rfl⟩

end Fits

section
variable {α β : Type} {p : Parser α} {f : α → Parser β} {c e : Cursor}

theorem run_bind {b : β} (h : (p >>= f) c = .ok (b, e)) :
    ∃ a d, p c = .ok (a, d) ∧ f a d = .ok (b, e) := by
  change (p c >>= fun r => f r.1 r.2) = .ok (b, e) at h
  cases hp : p c with
  | error e =>
    rw [hp] at h
    cases h
  | ok r =>
    rw [hp] at h
    exact ⟨r.1, r.2, rfl, h⟩

/-- The parser goes on over the tokens, or stays. -/
class Passes (p : Parser α) : Prop where
  goes : ∀ {c a d}, c.Laid → p c = .ok (a, d) → Goes c d

/-- The parser also gets past the next place. -/
class Consumes (p : Parser α) : Prop where
  consumes : ∀ {c a d}, c.Laid → p c = .ok (a, d) → Goes c d ∧ c.here.offset ≤ d.last.offset

instance [h : Consumes p] : Passes p := ⟨fun hc hp => (h.consumes hc hp).1⟩

instance [h : Looks p] : Passes p where
  goes {c a d} hc hp := by
    obtain ⟨b, hb⟩ := h.looks c
    cases hp.symm.trans hb
    exact .refl hc

theorem Passes.bind (hp : Passes p) (hf : ∀ a, Passes (f a)) : Passes (p >>= f) where
  goes hc h := by
    obtain ⟨a, d, ha, hb⟩ := run_bind h
    have hd := hp.goes hc ha
    exact hd.trans ((hf a).goes hd.laid hb)

theorem Consumes.bind (hp : Consumes p) (hf : ∀ a, Passes (f a)) : Consumes (p >>= f) where
  consumes hc h := by
    obtain ⟨a, d, ha, hb⟩ := run_bind h
    obtain ⟨hd, hread⟩ := hp.consumes hc ha
    have he := (hf a).goes hd.laid hb
    exact ⟨hd.trans he, hread.trans he.last⟩

theorem Consumes.skip (hp : Passes p) (hf : ∀ a, Consumes (f a)) : Consumes (p >>= f) where
  consumes hc h := by
    obtain ⟨a, d, ha, hb⟩ := run_bind h
    have hd := hp.goes hc ha
    obtain ⟨he, hread⟩ := (hf a).consumes hd.laid hb
    exact ⟨hd.trans he, hd.here.trans hread⟩

instance [hp : Passes p] [hf : ∀ a, Passes (f a)] : Passes (p >>= f) := hp.bind hf

instance [hp : Consumes p] [hf : ∀ a, Passes (f a)] : Consumes (p >>= f) := hp.bind hf

instance {q : Parser α} {b : Prop} [Decidable b] [hp : Passes p] [hq : Passes q] :
    Passes (if b then p else q) := by
  split
  · exact hp
  · exact hq

instance {g : α → β} [hp : Passes p] : Passes (g <$> p) := by
  rw [map_eq_pure_bind]
  exact hp.bind fun _ => inferInstance

instance {g : α → β} [hp : Consumes p] : Consumes (g <$> p) := by
  rw [map_eq_pure_bind]
  exact hp.bind fun _ => inferInstance

instance (expected : String) : Consumes (fail expected : Parser α) := ⟨fun _ h => by cases h⟩

instance (cause : ParseError.Cause) : Consumes (refuse cause : Parser α) :=
  ⟨fun _ h => by cases h⟩

instance : Consumes advance where
  consumes hc h := by
    cases h
    exact hc.next

instance : Consumes take := .skip inferInstance fun _ => .bind inferInstance fun _ => inferInstance

instance (k : TokenKind) : Passes (accept k) := by
  unfold accept
  infer_instance

instance (k : TokenKind) (expected : String) : Consumes (expect k expected) := by
  refine .skip inferInstance fun t => ?_
  cases t with
  | none => infer_instance
  | some t =>
    dsimp only
    split <;> infer_instance

theorem pastClose_goes {close : Symbol} {depth : Nat} {last : Location} {ts : List Token}
    (hc : Cursor.Laid ⟨ts, last⟩) (h : Cursor.pastClose close depth last ts = .ok e) :
    Goes ⟨ts, last⟩ e ∧ (Cursor.mk ts last).here.offset ≤ e.last.offset := by
  induction ts generalizing depth last with
  | nil => simp [Cursor.pastClose] at h
  | cons t ts ih =>
    have hnext := hc.next
    have hlater {depth : Nat} (h : Cursor.pastClose close depth t.finish ts = .ok e) :
        Goes ⟨t :: ts, last⟩ e ∧ (Cursor.mk (t :: ts) last).here.offset ≤ e.last.offset := by
      have he := (ih hc.2 h).1
      exact ⟨hnext.1.trans he, hnext.2.trans he.last⟩
    unfold Cursor.pastClose at h
    split at h
    · exact hlater h
    · exact hlater h
    · split at h
      · cases h
        exact hnext
      · cases h
    · exact hlater h

instance (close : Symbol) : Consumes (skipBalanced close) where
  consumes {c _ d} hc h := by
    obtain ⟨c', d', hget, hrun⟩ := run_bind h
    cases hget
    cases hpast : Cursor.pastClose close 0 c.last c.rest with
    | error e =>
      simp only [hpast] at hrun
      cases hrun
    | ok d'' =>
      simp only [hpast] at hrun
      cases hrun
      exact pastClose_goes hc hpast

theorem iterate_induction {step : α → Parser (Option α)} {I : Cursor → α → Prop}
    (hstep : ∀ {c a b d}, I c a → step a c = .ok (some b, d) → I d b) {a b : α} {d : Cursor}
    (ha : I c a) (h : iterate step a c = .ok (b, d)) :
    ∃ c', I c' b ∧ step b c' = .ok (none, d) := by
  have hfor : ∀ ts c a, I c a → iterateFor step ts a c = .ok (b, d) →
      ∃ c', I c' b ∧ step b c' = .ok (none, d) := by
    intro ts
    induction ts with
    | nil =>
      intro c a ha h
      obtain ⟨o, c', ho, hrest⟩ := run_bind h
      cases o with
      | none =>
        cases hrest
        exact ⟨c, ha, ho⟩
      | some a' => cases hrest
    | cons t ts ih =>
      intro c a ha h
      obtain ⟨o, c', ho, hrest⟩ := run_bind h
      cases o with
      | none =>
        cases hrest
        exact ⟨c, ha, ho⟩
      | some a' => exact ih c' a' (hstep ha ho) hrest
  exact hfor c.rest c a ha h

theorem Passes.iterate {step : α → Parser (Option α)} (h : ∀ a, Passes (step a)) (a : α) :
    Passes (iterate step a) where
  goes {c _ d} hc hrun := by
    obtain ⟨c', hc', hlast⟩ := iterate_induction (I := fun c' _ => Goes c c')
      (fun hc' hs => hc'.trans ((h _).goes hc'.laid hs)) (.refl hc) hrun
    exact hc'.trans ((h _).goes hc'.laid hlast)

instance {round : Parser (Option α)} [hr : Passes round] : Passes (many round) := by
  have hiterate : Passes (iterate (fun found => do return (← round).map (· :: found)) []) :=
    .iterate (fun _ => inferInstance) []
  unfold many
  infer_instance

instance {separator : TokenKind} {item : Parser α} [Consumes item] :
    Consumes (sepBy1 separator item) := by
  unfold sepBy1
  infer_instance

instance : Passes skipAttributes := .iterate (fun _ => inferInstance) ()

instance : Consumes skipStatement := by
  refine .skip (.iterate (fun _ => .bind inferInstance fun k => ?_) ()) fun _ => inferInstance
  split <;> infer_instance

end

@[simp]
theorem subset_append_third (as bs cs ds : List Outline) : as ⊆ bs ++ (cs ++ (as ++ ds)) :=
  List.subset_append_of_subset_right _ (List.subset_append_of_subset_right _ (by simp))

section
variable {α β : Type} {p : Parser α} {f : α → Parser β} {c : Cursor} {start : Nat}
  {found found' : List Outline} {parts : β → List Outline} {q : α → List Outline}

/-- Begun at `c`, no earlier than `start`, after these nodes were found from `start` on, the parser
gives a result whose nodes lie from `start` to the end of the last token that was read. -/
def LaysAt (c : Cursor) (start : Nat) (found : List Outline) (parts : α → List Outline)
    (p : Parser α) : Prop :=
  c.Laid → start ≤ c.here.offset → Fits start c.last.offset found →
    ∀ a d, p c = .ok (a, d) → Goes c d ∧ Fits start d.last.offset (parts a)

def Lays (start : Nat) (found : List Outline) (parts : α → List Outline) (p : Parser α) : Prop :=
  ∀ c, LaysAt c start found parts p

/-- The nodes of the result lie in the stretch that the parser reads. -/
def Gives (parts : α → List Outline) (p : Parser α) : Prop := ∀ start, Lays start [] parts p

namespace Lays

theorem refit (h : Lays start found' q p)
    (hfits : ∀ finish, Fits start finish found → Fits start finish found') :
    Lays start found q p :=
  fun c hc hs hfound => h c hc hs (hfits _ hfound)

theorem seq (h : Lays start found q p) (hf : ∀ a, Lays start (q a ++ found) parts (f a)) :
    Lays start found parts (p >>= f) := by
  intro c hc hs hfound b e hrun
  obtain ⟨a, d, ha, hb⟩ := run_bind hrun
  obtain ⟨hd, hq⟩ := h c hc hs hfound a d ha
  have hfound' := hq.append (hfound.mono le_rfl hd.last)
  obtain ⟨he, hparts⟩ := hf a d hd.laid (hs.trans hd.here) hfound' b e hb
  exact ⟨hd.trans he, hparts⟩

/- After what was found before, which the parser does not look at. -/
theorem next (h : Lays start [] q p) (hf : ∀ a, Lays start (q a ++ found) parts (f a)) :
    Lays start found parts (p >>= f) :=
  (h.refit fun _ _ => .nil).seq hf

theorem skip [h : Passes p] (hf : ∀ a, Lays start found parts (f a)) :
    Lays start found parts (p >>= f) := by
  have hp : Lays start found (fun _ => []) p :=
    fun c hc _ _ a d ha => ⟨h.goes hc ha, .nil⟩
  exact hp.seq hf

/- What is read only in one case. -/
theorem perhaps {b : Prop} [Decidable b] {r : Parser β} [Passes p]
    (hr : Lays start found parts r) :
    Lays start found parts (if b then p >>= fun _ => r else r) := by
  split
  · exact .skip fun _ => hr
  · exact hr

/- A token that is read counts as a node without parts. -/
theorem token [h : Consumes p] (hf : ∀ a o, Lays start (o :: found) parts (f a)) :
    Lays start found parts (p >>= f) := by
  intro c hc hs hfound b e hrun
  obtain ⟨a, d, ha, hb⟩ := run_bind hrun
  obtain ⟨hd, hread⟩ := h.consumes hc ha
  have htoken : Fits start d.last.offset [.node ⟨c.here, d.last⟩ []] :=
    .singleton_node .nil hread hs le_rfl
  have hfound' := htoken.append (hfound.mono le_rfl hd.last)
  obtain ⟨he, hparts⟩ := hf a _ d hd.laid (hs.trans hd.here) hfound' b e hb
  exact ⟨hd.trans he, hparts⟩

theorem pure_of {a : α} (h : ∀ finish, Fits start finish found → Fits start finish (q a)) :
    Lays start found q (Pure.pure a) := by
  intro c hc _ hfound a' d hrun
  cases hrun
  exact ⟨.refl hc, h _ hfound⟩

theorem pure {a : α} (h : q a ⊆ found) : Lays start found q (Pure.pure a) :=
  pure_of fun _ hfound => hfound.subset h

theorem fail (expected : String) : Lays start found q (Grammar.fail expected) :=
  fun _ _ _ _ _ _ h => by cases h

theorem refuse (cause : ParseError.Cause) : Lays start found q (Grammar.refuse cause) :=
  fun _ _ _ _ _ _ h => by cases h

/- A node with the span of all that was read, given what its span is around. -/
theorem close_of {l : Location} {mk : Span → β} (hne : found ≠ [])
    (h : ∀ s : Span, s.start.offset ≤ s.finish.offset →
      Fits s.start.offset s.finish.offset found →
      Fits s.start.offset s.finish.offset (parts (mk s))) :
    Lays l.offset found parts (spanFrom l >>= fun s => Pure.pure (mk s)) := by
  intro c hc _ hfound b e hrun
  cases hrun
  exact ⟨.refl hc, h ⟨l, c.last⟩ (hfound.le hne) hfound⟩

theorem close {l : Location} {mk : Span → β} {inner : Span → List Outline} (hne : found ≠ [])
    (hmk : ∀ s, parts (mk s) = [.node s (inner s)]) (hinner : ∀ s, inner s ⊆ found) :
    Lays l.offset found parts (spanFrom l >>= fun s => Pure.pure (mk s)) := by
  refine close_of hne fun s hs hfound => ?_
  rw [hmk]
  exact .singleton_node (hfound.subset (hinner s)) hs le_rfl le_rfl

theorem iterate {step : α → Parser (Option α)}
    (h : ∀ a, Lays start (q a) (fun o => o.toList.flatMap q) (step a)) (a : α) :
    Lays start (q a) q (iterate step a) := by
  intro c hc hs ha b e hrun
  have hstep {c' : Cursor} {a : α} {o : Option α} {d : Cursor}
      (hc' : Goes c c' ∧ Fits start c'.last.offset (q a)) (ho : step a c' = .ok (o, d)) :
      Goes c d ∧ Fits start d.last.offset (o.toList.flatMap q ++ q a) := by
    obtain ⟨hd, hfits⟩ := h a c' hc'.1.laid (hs.trans hc'.1.here) hc'.2 o d ho
    exact ⟨hc'.1.trans hd, hfits.append (hc'.2.mono le_rfl hd.last)⟩
  obtain ⟨c', hc', hlast⟩ := iterate_induction
    (I := fun c' a => Goes c c' ∧ Fits start c'.last.offset (q a))
    (fun hc' ho => ⟨(hstep hc' ho).1, (hstep hc' ho).2.subset (by simp)⟩) ⟨.refl hc, ha⟩ hrun
  exact ⟨(hstep hc' hlast).1, (hstep hc' hlast).2.subset (by simp)⟩

theorem many {round : Parser (Option α)}
    (h : Lays start [] (fun o => o.toList.flatMap q) round) :
    Lays start [] (fun as => as.flatMap q) (Grammar.many round) := by
  have hfound : Lays start [] (fun as : List α => as.flatMap q)
      (Grammar.iterate (fun found => do return (← round).map (· :: found)) []) := by
    refine iterate (q := fun as : List α => as.flatMap q) (fun found => ?_) []
    refine h.next fun o => .pure ?_
    cases o <;> simp
  exact hfound.seq fun as => .pure (by simp [List.subset_def])

theorem sepBy1 {item : Parser α} (separator : TokenKind) (h : Lays start [] q item) :
    Lays start [] (fun as => as.flatMap q) (Grammar.sepBy1 separator item) := by
  have hround : Lays start [] (fun o => o.toList.flatMap q)
      (do if ← accept separator then return some (← item) else return none) := by
    refine .skip fun more => ?_
    split
    · exact h.next fun a => .pure (by simp)
    · exact .pure (by simp)
  exact h.next fun first => hround.many.next fun others => .pure (by simp)

theorem commaList {item : Parser α} (close : TokenKind) (h : Lays start [] q item) :
    Lays start [] (fun as => as.flatMap q) (Grammar.commaList close item) := by
  refine (iterate (q := fun found : List α × Bool => found.1.flatMap q) ?_ ([], true)).seq
    fun found => .pure (by simp [List.subset_def])
  intro found
  refine .skip fun closed => ?_
  split
  · exact .pure (by simp)
  · exact h.next fun a => .skip fun more => .pure (by simp)

theorem here {f : Location → Parser β} (hf : ∀ c, LaysAt c start found parts (f c.here)) :
    Lays start found parts (here >>= f) := hf

end Lays

namespace LaysAt

theorem look [h : Looks p] (hf : ∀ a, LaysAt c start found parts (f a)) :
    LaysAt c start found parts (p >>= f) := by
  intro hc hs hfound b e hrun
  obtain ⟨a, ha⟩ := h.looks c
  obtain ⟨a', c', ha', hb⟩ := run_bind hrun
  cases ha'.symm.trans ha
  exact hf a hc hs hfound b e hb

/- The token at the place, read as a node. -/
theorem leaf {f : String → Span → Parser β}
    (hf : ∀ lexeme s, Lays start (.node s [] :: found) parts (f lexeme s)) :
    LaysAt c start found parts (take >>= fun lexeme => spanFrom c.here >>= f lexeme) := by
  intro hc hs hfound b e hrun
  obtain ⟨lexeme, d, hd, hb⟩ := run_bind hrun
  obtain ⟨hgoes, hread⟩ := Consumes.consumes hc hd
  have hleaf : Fits start d.last.offset [.node ⟨c.here, d.last⟩ []] :=
    .singleton_node .nil hread hs le_rfl
  have hfound' := hleaf.append (hfound.mono le_rfl hgoes.last)
  obtain ⟨he, hparts⟩ := hf lexeme _ d hgoes.laid (hs.trans hgoes.here) hfound' b e hb
  exact ⟨hgoes.trans he, hparts⟩

/- What is laid from the place on is laid from any earlier start on. -/
theorem from_here (h : Lays c.here.offset [] q p) : LaysAt c start found q p := by
  intro hc hs _ a d hrun
  obtain ⟨hd, hq⟩ := h c hc le_rfl .nil a d hrun
  exact ⟨hd, hq.mono hs le_rfl⟩

end LaysAt

namespace Gives

theorem passes (h : Gives q p) : Passes p :=
  ⟨fun hc hp => (h 0 _ hc (Nat.zero_le _) .nil _ _ hp).1⟩

theorem bind (h : Gives q p) (hf : ∀ a, Lays start (q a ++ found) parts (f a)) :
    Lays start found parts (p >>= f) :=
  (h start).next hf

/- From the place where the parser begins. -/
theorem here {f : Location → Parser β} (hf : ∀ l : Location, Lays l.offset [] parts (f l)) :
    Gives parts (here >>= f) := by
  intro start c hc hs _ b e hrun
  obtain ⟨he, hparts⟩ := hf c.here c hc le_rfl .nil b e hrun
  exact ⟨he, hparts.mono hs le_rfl⟩

theorem map {g : α → β} (h : Gives q p) (hg : ∀ a, parts (g a) = q a) : Gives parts (g <$> p) := by
  intro start
  rw [map_eq_pure_bind]
  exact h.bind fun a => .pure (by simp [hg])

theorem empty {a : α} (h : q a = []) : Gives q (pure a) := fun _ => .pure (by simp [h])

theorem optional (h : Gives q p) : Gives (fun o => o.toList.flatMap q) (some <$> p) :=
  h.map fun a => by simp

/- From the place where the first result begins. -/
theorem spanning {p : Parser Expr} {f : Expr → Parser β} (h : Gives (fun e => [e.outline]) p)
    (hf : ∀ e, Lays e.span.start.offset [e.outline] parts (f e)) : Gives parts (p >>= f) := by
  intro start c hc hs hfound b d hrun
  obtain ⟨e, c', he, hb⟩ := run_bind hrun
  obtain ⟨hc', hfits⟩ := h start c hc hs hfound e c' he
  obtain ⟨hnested, hstart, hfinish⟩ := hfits e.outline List.mem_cons_self
  cases hnested with
  | node ordered =>
    have hown : Fits e.span.start.offset c'.last.offset [e.outline] := by
      intro o ho
      rw [List.mem_singleton.mp ho]
      exact ⟨(hfits _ List.mem_cons_self).1, le_rfl, hfinish⟩
    have hahead : e.span.start.offset ≤ c'.here.offset :=
      (hown.le (by simp)).trans hc'.laid.last_le_here
    obtain ⟨hd, hparts⟩ := hf e c' hc'.laid hahead hown b d hb
    exact ⟨hc'.trans hd, hparts.mono hstart le_rfl⟩

end Gives

/- One of two parsers, and then the same in both cases. -/
theorem Lays.either {b : Prop} [Decidable b] {p' : Parser α} (h : Gives q p) (h' : Gives q p')
    (hf : ∀ a, Lays start (q a ++ found) parts (f a)) :
    Lays start found parts (if b then p >>= f else p' >>= f) := by
  split
  · exact h.bind hf
  · exact h'.bind hf

end

end Grammar

end ContractAudit
