import ContractAudit.Proofs.FileSpans

/-! Where namespace blocks begin and end. Main statement: the blocks of a file follow one another,
the contents of each lie before the next one, and two blocks overlap exactly if the first has no
braces and ends with the header of the second, in which they then overlap. -/
namespace ContractAudit

namespace Grammar

open Source

/-- The end of the header that a keyword begins: that of the name after it, if there is one. -/
def headerFinish (keyword : Token) : List Token → Location
  | [] => keyword.finish
  | t :: _ => if t.kind = .name then t.finish else keyword.finish

theorem headerFinish_of_named {t : Token} {rest : List Token}
    (h : ((Cursor.mk rest t.finish).kindAt? 0 == some .name) = true) :
    headerFinish t rest = (Cursor.mk rest t.finish).next.last := by
  cases rest with
  | nil => cases h
  | cons u rest =>
    have hkind : u.kind = .name := by simpa [Cursor.kindAt?] using h
    simp [headerFinish, hkind, Cursor.next]

theorem headerFinish_of_unnamed {t : Token} {rest : List Token}
    (h : ¬((Cursor.mk rest t.finish).kindAt? 0 == some .name) = true) :
    headerFinish t rest = t.finish := by
  cases rest with
  | nil => rfl
  | cons u rest =>
    have hkind : u.kind ≠ .name := by simpa [Cursor.kindAt?] using h
    simp [headerFinish, hkind]

/-- The header of a namespace stands from `start` to `finish`. -/
def HeaderAt (ts : List Token) (start finish : Location) : Prop :=
  ∃ t rest, t :: rest <:+ ts ∧ t.kind = Keyword.kwNamespace ∧ t.location = start ∧
    headerFinish t rest = finish

/-- A closing brace from `start` to `finish`. -/
def BraceAt (ts : List Token) (start finish : Location) : Prop :=
  ∃ t ∈ ts, t.kind = Symbol.rbrace ∧ t.location = start ∧ t.finish = finish

/-- What ends a block begins here, behind all that is in the block. -/
def EndsFrom (b : NamespaceBlock) (l : Location) : Prop :=
  b.span.start.offset ≤ l.offset ∧ ∀ o ∈ b.parts, o.span.finish.offset ≤ l.offset

/-- One block comes before another: what is in the first lies before the second, and what is in the
second lies after the first. The first ends with a brace behind its contents, or with the header of
a namespace behind them. -/
structure Follows (ts : List Token) (b b' : NamespaceBlock) : Prop where
  begins : b.span.start.offset ≤ b'.span.start.offset
  before : ∀ o ∈ b.parts, o.span.finish.offset ≤ b'.span.start.offset
  after : ∀ o ∈ b'.parts, b.span.finish.offset ≤ o.span.start.offset
  ends : ∃ l, EndsFrom b l ∧
    (BraceAt ts l b.span.finish ∧ b.span.finish.offset ≤ b'.span.start.offset ∨
      HeaderAt ts l b.span.finish ∧
        (l = b'.span.start ∨ b.span.finish.offset ≤ b'.span.start.offset))

instance {α β : Type} {p : Parser α} {f : α → β} [hp : Onward p] : Onward (f <$> p) :=
  ⟨fun n => (hp.moves n).map⟩

section
variable {g : Nested} {c d : Cursor} {bs bs' : Blocks}

theorem expect_run {k : TokenKind} {expected lexeme : String}
    (hrun : expect k expected c = .ok (lexeme, d)) :
    ∃ t, c.rest = t :: d.rest ∧ t.kind = k ∧ d.last = t.finish := by
  obtain ⟨t, c₁, hpeek, hrun⟩ := run_bind hrun
  cases hpeek
  cases hrest : c.rest with
  | nil =>
    simp only [hrest, List.head?_nil] at hrun
    cases hrun
  | cons t ts =>
    simp only [hrest, List.head?_cons] at hrun
    split at hrun
    · next hkind =>
      cases hrun
      have hnext : c.next = ⟨ts, t.finish⟩ := by simp [Cursor.next, hrest]
      exact ⟨t, by rw [hnext], hkind, by rw [hnext]⟩
    · cases hrun

/- The brace that closes the block is read last. -/
theorem bracedItems_run (hgives : g.Gives) {n : Nat} (hg : g.Reads n) (hn : c.rest.length < n)
    (hc : c.Laid) {b b' : NamespaceBlock} (hb : b.parts = [])
    (hrun : bracedItems g b c = .ok (b', d)) :
    ∃ l, BraceAt c.rest l d.last ∧ c.here.offset ≤ l.offset ∧
      ∀ o ∈ b'.parts, o.span.finish.offset ≤ l.offset := by
  obtain ⟨b₁, c₁, hloop, hrun⟩ := run_bind hrun
  obtain ⟨_, c₂, hbrace, hrun⟩ := run_bind hrun
  cases hrun
  obtain ⟨t, hrest, hkind, hlast⟩ := expect_run hbrace
  have hmoves : c₁ ≤ c := (Rounds.iterate (bracedStep_rounds hg) b c hn).run hloop
  obtain ⟨hgoes, hparts⟩ :=
    bracedLoop_gives hgives 0 b c hc (Nat.zero_le _) (hb ▸ .nil) b' c₁ hloop
  have hhere : c₁.here = t.location := by simp [Cursor.here, hrest]
  have hahead : c₁.last.offset ≤ t.location.offset := hhere ▸ hgoes.laid.last_le_here
  refine ⟨t.location, ⟨t, ?_, hkind, rfl, hlast.symm⟩, hhere ▸ hgoes.here, ?_⟩
  · exact List.IsSuffix.subset hmoves (by simp [hrest])
  · exact fun o ho => (hparts o ho).2.2.trans hahead

/-- What a namespace declaration makes of the blocks. Its header is read up to `c₁`, and the block
before it ends there; the brace or the semicolon is read up to `c₂`. -/
structure NamespaceRead (g : Nested) (bs : Blocks) (c c₁ c₂ : Cursor) (name : Option String)
    (bs' : Blocks) (d : Cursor) : Prop where
  header : c₁ ≤ c
  header_goes : c.Laid → Goes c c₁
  sign : c₂ ≤ c₁
  sign_goes : c₁.Laid → Goes c₁ c₂
  result : (∃ b, bracedItems g (emptyBlock name c.here) c₂ = .ok (b, d) ∧
      bs' = ⟨closeBlock (closeBlock bs.done bs.current c₁.last false) b d.last true,
        emptyBlock none d.here⟩) ∨
    d = c₂ ∧ bs' = ⟨closeBlock bs.done bs.current c₁.last false, emptyBlock name c.here⟩

theorem namespaceDecl_read {t : Token} {rest : List Token} (hrest : c.rest = t :: rest)
    (hrun : namespaceDecl g bs c = .ok (bs', d)) :
    ∃ c₁ c₂ name, c₁.last = headerFinish t rest ∧ NamespaceRead g bs c c₁ c₂ name bs' d := by
  have hnext : c.next = ⟨rest, t.finish⟩ := by simp [Cursor.next, hrest]
  obtain ⟨_, _, hl, hrun⟩ := run_bind hrun
  cases hl
  obtain ⟨_, c₁, hadvance, hrun⟩ := run_bind hrun
  have hc₁ : c₁ = ⟨rest, t.finish⟩ := by
    cases hadvance
    exact hnext
  obtain ⟨named, c₂, hnamed, hrun⟩ := run_bind hrun
  cases hnamed
  extract_lets after at hrun
  have hafter : ∀ name c₁, c₁ ≤ c → (c.Laid → Goes c c₁) → after name c₁ = .ok (bs', d) →
      ∃ c₂, NamespaceRead g bs c c₁ c₂ name bs' d := by
    intro name c₁ hle hgoes hrun
    obtain ⟨_, _, hend, hrun⟩ := run_bind hrun
    cases hend
    obtain ⟨braces, c₂, hbraces, hrun⟩ := run_bind hrun
    have hle₂ : c₂ ≤ c₁ := Onward.run hbraces
    have hgoes₂ (hc : c₁.Laid) : Goes c₁ c₂ := Passes.goes hc hbraces
    split at hrun
    · obtain ⟨b, c₃, hb, hrun⟩ := run_bind hrun
      cases hrun
      exact ⟨c₂, hle, hgoes, hle₂, hgoes₂, .inl ⟨b, hb, rfl⟩⟩
    · obtain ⟨_, c₃, hsemicolon, hrun⟩ := run_bind hrun
      cases hrun
      have hle₃ : d ≤ c₂ := Onward.run hsemicolon
      have hgoes₃ (hc : c₂.Laid) : Goes c₂ d := Passes.goes hc hsemicolon
      exact ⟨d, hle, hgoes, hle₃.trans hle₂,
        fun hc => (hgoes₂ hc).trans (hgoes₃ (hgoes₂ hc).laid), .inr ⟨rfl, rfl⟩⟩
  have hle₁ : c₁ ≤ c := Onward.run hadvance
  have hgoes₁ (hc : c.Laid) : Goes c c₁ := Passes.goes hc hadvance
  split at hrun
  · next hname =>
    obtain ⟨name, c₂, htake, hrun⟩ := run_bind hrun
    have hle₂ : c₂ ≤ c₁ := Onward.run htake
    have hgoes₂ (hc : c₁.Laid) : Goes c₁ c₂ := Passes.goes hc htake
    have hlast : c₂.last = headerFinish t rest := by
      subst hc₁
      cases htake
      exact (headerFinish_of_named hname).symm
    obtain ⟨c₃, hread⟩ := hafter name c₂ (hle₂.trans hle₁)
      (fun hc => (hgoes₁ hc).trans (hgoes₂ (hgoes₁ hc).laid)) hrun
    exact ⟨c₂, c₃, name, hlast, hread⟩
  · next hname =>
    obtain ⟨name, c₂, hnone, hrun⟩ := run_bind hrun
    cases hnone
    have hlast : c₁.last = headerFinish t rest := by
      subst hc₁
      exact (headerFinish_of_unnamed hname).symm
    obtain ⟨c₂, hread⟩ := hafter none c₁ hle₁ hgoes₁ hrun
    exact ⟨c₁, c₂, none, hlast, hread⟩

end

/-- The blocks so far follow one another, up to the one that is being read. -/
structure Blocks.Ordered (ts : List Token) (start : Nat) (c : Cursor) (bs : Blocks) : Prop where
  fits : bs.Fits start c
  laid : c.Laid
  ahead : start ≤ c.here.offset
  rest : c.rest <:+ ts
  follows : (bs.current :: bs.done).Pairwise fun b' b => Follows ts b b'

section
variable {ts : List Token} {start : Nat} {c d : Cursor} {bs : Blocks} {b : NamespaceBlock}

/- Only the start and the contents of a block tell what it follows. -/
theorem Follows.congr {b₁ b₂ : NamespaceBlock} (h : Follows ts b b₁)
    (hstart : b₂.span.start = b₁.span.start)
    (hparts : ∀ o ∈ b₂.parts, b.span.finish.offset ≤ o.span.start.offset) : Follows ts b b₂ where
  begins := hstart ▸ h.begins
  before := hstart ▸ h.before
  after := hparts
  ends := hstart ▸ h.ends

theorem closeBlock_follows (h : (bs.current :: bs.done).Pairwise fun b' b => Follows ts b b')
    (finish : Location) (keepEmpty : Bool) :
    (closeBlock bs.done bs.current finish keepEmpty).Pairwise fun b' b => Follows ts b b' := by
  rw [List.pairwise_cons] at h
  unfold closeBlock
  split
  · refine List.pairwise_cons.mpr ⟨fun b hb => ?_, h.2⟩
    exact (h.1 b hb).congr rfl (h.1 b hb).after
  · exact h.2

theorem mem_closeBlock {done : List NamespaceBlock} {b' : NamespaceBlock} {finish : Location}
    {keepEmpty : Bool} (h : b ∈ closeBlock done b' finish keepEmpty) :
    b = { b' with span := ⟨b'.span.start, finish⟩ } ∨ b ∈ done := by
  unfold closeBlock at h
  split at h
  · exact List.mem_cons.mp h
  · exact .inr h

/-- What ends a block that another one follows. -/
def Finished (ts : List Token) (b : NamespaceBlock) : Prop :=
  ∃ l, EndsFrom b l ∧ (BraceAt ts l b.span.finish ∨ HeaderAt ts l b.span.finish)

theorem Follows.finished {b' : NamespaceBlock} (h : Follows ts b b') : Finished ts b := by
  obtain ⟨l, hl, ⟨hbrace, _⟩ | ⟨hheader, _⟩⟩ := h.ends
  · exact ⟨l, hl, .inl hbrace⟩
  · exact ⟨l, hl, .inr hheader⟩

/- A block that lies before a place is followed by the block that begins there. -/
theorem follows_past {finish : Nat} (hfinished : Finished ts b)
    (hfits : Fits start finish [b.outline]) (name : Option String) {l : Location}
    (hl : finish ≤ l.offset) : Follows ts b (emptyBlock name l) := by
  obtain ⟨hnested, -, hfinish⟩ := hfits _ List.mem_cons_self
  have hpast : b.span.finish.offset ≤ l.offset := hfinish.trans hl
  cases hnested with
  | node ordered within _ =>
    refine ⟨ordered.trans hpast, fun o ho => (within o ho).2.trans hpast, by simp [emptyBlock,
      NamespaceBlock.parts], ?_⟩
    obtain ⟨l', hl', hbrace | hheader⟩ := hfinished
    · exact ⟨l', hl', .inl ⟨hbrace, hpast⟩⟩
    · exact ⟨l', hl', .inr ⟨hheader, .inr hpast⟩⟩

/- The blocks after the header of the next one has been read. -/
theorem Blocks.Ordered.opened (h : bs.Ordered ts start c) {t : Token} {rest : List Token}
    (hrest : c.rest = t :: rest) (hkind : t.kind = Keyword.kwNamespace) (name : Option String) :
    ∀ b ∈ closeBlock bs.done bs.current (headerFinish t rest) false,
      Follows ts b (emptyBlock name c.here) := by
  have hhere : c.last.offset ≤ c.here.offset := h.laid.last_le_here
  have hheader : HeaderAt ts c.here (headerFinish t rest) :=
    ⟨t, rest, hrest ▸ h.rest, hkind, by simp [Cursor.here, hrest], rfl⟩
  intro b hb
  rcases mem_closeBlock hb with rfl | hb
  · have hbefore : ∀ o ∈ bs.current.parts, o.span.finish.offset ≤ c.here.offset :=
      fun o ho => (h.fits.items o ho).2.2.trans hhere
    exact ⟨h.fits.ahead, hbefore, by simp [emptyBlock, NamespaceBlock.parts],
      c.here, ⟨h.fits.ahead, hbefore⟩, .inr ⟨hheader, .inl rfl⟩⟩
  · have hfinished : Finished ts b := ((List.pairwise_cons.mp h.follows).1 b hb).finished
    refine follows_past hfinished (h.fits.done.subset ?_) name hhere
    simpa using ⟨b, hb, rfl⟩

end

section
variable {g : Nested} (hg : g.Gives) {n : Nat} (hr : g.Reads n) {ts : List Token}
  (hn : ts.length < n) {start : Nat} {c d : Cursor} {bs bs' : Blocks}
include hg hr hn

/- The block in braces follows those before it, and what comes after the brace follows it. -/
theorem bracedItems_follows {done : List NamespaceBlock} {b opened : NamespaceBlock}
    (hparts : opened.parts = []) (hbegins : opened.span.start.offset ≤ c.here.offset)
    (hlaid : c.Laid) (hsuffix : c.rest <:+ ts) (hrun : bracedItems g opened c = .ok (b, d))
    (hopened : ∀ x ∈ done, Follows ts x opened ∧ x.span.finish.offset ≤ c.last.offset)
    (hdone : done.Pairwise fun b' b => Follows ts b b')
    (hfits : Fits start d.last.offset
      ((closeBlock done b d.last true).map NamespaceBlock.outline)) :
    (emptyBlock none d.here :: closeBlock done b d.last true).Pairwise
      fun b' b => Follows ts b b' := by
  have hgives (l : Nat) (hl : l ≤ c.here.offset) :=
    bracedItems_gives hg l opened c hlaid hl (hparts ▸ .nil) b d hrun
  have hend : d.last.offset ≤ d.here.offset :=
    (hgives 0 (Nat.zero_le _)).1.laid.last_le_here
  have hstart : b.span.start = opened.span.start :=
    congrArg Span.start (bracedItems_keeps _ _ _ _ hrun).2
  have hlength : c.rest.length < n := lt_of_le_of_lt hsuffix.length_le hn
  obtain ⟨l, ⟨t, ht, hbrace⟩, hl, hbehind⟩ := bracedItems_run hg hr hlength hlaid hparts hrun
  have hclosed : Finished ts { b with span := ⟨b.span.start, d.last⟩ } :=
    ⟨l, ⟨(hstart ▸ hbegins).trans hl, hbehind⟩, .inl ⟨t, List.IsSuffix.subset hsuffix ht, hbrace⟩⟩
  refine List.pairwise_cons.mpr ⟨?_, List.pairwise_cons.mpr ⟨?_, hdone⟩⟩
  · intro x (hx : x ∈ closeBlock done b d.last true)
    have hfinished : Finished ts x := by
      rcases mem_closeBlock hx with rfl | hx
      · exact hclosed
      · exact (hopened x hx).1.finished
    refine follows_past hfinished (hfits.subset ?_) none hend
    simpa using ⟨x, hx, rfl⟩
  · intro x hx
    have hlate : x.span.finish.offset ≤ c.here.offset :=
      (hopened x hx).2.trans hlaid.last_le_here
    exact (hopened x hx).1.congr hstart fun o ho => ((hgives _ hlate).2 o ho).2.1

theorem namespaceDecl_ordered (h : bs.Ordered ts start c) {t : Token} {rest : List Token}
    (hrest : c.rest = t :: rest) (hkind : t.kind = Keyword.kwNamespace)
    (hrun : namespaceDecl g bs c = .ok (bs', d)) (hle : d ≤ c) : bs'.Ordered ts start d := by
  obtain ⟨hgoes, hfits⟩ := namespaceDecl_fits hg h.laid h.ahead h.fits hrun
  obtain ⟨c₁, c₂, name, hlast, hread⟩ := namespaceDecl_read hrest hrun
  have hgoes₁ := hread.header_goes h.laid
  have hgoes₂ := hread.sign_goes hgoes₁.laid
  have hopened := h.opened hrest hkind name
  have hdone := closeBlock_follows h.follows c₁.last false
  rw [← hlast] at hopened
  refine ⟨hfits, hgoes.laid, h.ahead.trans hgoes.here,
    List.IsSuffix.trans (Cursor.le_def.mp hle) h.rest, ?_⟩
  rcases hread.result with ⟨b, hb, rfl⟩ | ⟨rfl, rfl⟩
  · have hsuffix : c₂.rest <:+ ts :=
      List.IsSuffix.trans (Cursor.le_def.mp (hread.sign.trans hread.header)) h.rest
    have hbefore := closeBlock_fits (h.fits.goes hgoes₁) false (by simp)
    have hbegins : c.here.offset ≤ c₂.here.offset := hgoes₁.here.trans hgoes₂.here
    refine bracedItems_follows hg hr hn rfl hbegins hgoes₂.laid hsuffix hb ?_ hdone hfits.done
    intro x hx
    have hx' := (hbefore x.outline (List.mem_map_of_mem hx)).2.2
    exact ⟨hopened x hx, hx'.trans hgoes₂.last⟩
  · exact List.pairwise_cons.mpr ⟨hopened, hdone⟩

omit hr hn in
/- What is new in the block begins after the blocks before it, and so did what was there. -/
theorem topLevelItem_follows {b : NamespaceBlock} (h : bs.Ordered ts start c)
    (hrun : topLevelItem g bs.current c = .ok (b, d)) :
    (b :: bs.done).Pairwise fun b' b => Follows ts b b' := by
  have hkeeps := topLevelItem_keeps _ _ _ _ hrun
  obtain ⟨hcurrent, hdone⟩ := List.pairwise_cons.mp h.follows
  refine List.pairwise_cons.mpr ⟨fun x hx => ?_, hdone⟩
  have hlate : x.span.finish.offset ≤ c.last.offset :=
    (h.fits.done x.outline (List.mem_map_of_mem hx)).2.2
  have hitems : Fits x.span.finish.offset c.last.offset bs.current.parts := fun o ho =>
    ⟨(h.fits.items o ho).1, (hcurrent x hx).after o ho, (h.fits.items o ho).2.2⟩
  obtain ⟨-, hparts⟩ := topLevelItem_gives hg _ _ c h.laid
    (hlate.trans h.laid.last_le_here) hitems _ _ hrun
  exact (hcurrent x hx).congr (congrArg Span.start hkeeps.2) fun o ho => (hparts o ho).2.1

theorem fileStep_ordered {o : Option Blocks} (h : bs.Ordered ts start c)
    (hrun : fileStep g bs c = .ok (o, d)) : ∀ bs' ∈ o, bs'.Ordered ts start d := by
  have hlength : c.rest.length < n + 1 := by
    have := h.rest.length_le
    omega
  have hle : d ≤ c := ((fileStep_rounds hr bs c hlength).run hrun).1
  obtain ⟨hgoes, hfits⟩ := fileStep_fits hg h.laid h.ahead h.fits hrun
  obtain ⟨ended, _, hended, hrun⟩ := run_bind hrun
  cases hended
  split at hrun
  · cases hrun
    simp
  · next hmore =>
    obtain ⟨t, rest, hrest⟩ := List.exists_cons_of_ne_nil (by simpa using hmore)
    obtain ⟨declares, _, hdeclares, hrun⟩ := run_bind hrun
    cases hdeclares
    split at hrun
    · next hkeyword =>
      obtain ⟨bs', _, hdecl, hrun⟩ := run_bind hrun
      cases hrun
      have hkind : t.kind = Keyword.kwNamespace := by
        simpa [Cursor.kindAt?, hrest] using hkeyword
      simpa using namespaceDecl_ordered hg hr hn h hrest hkind hdecl hle
    · obtain ⟨b, _, hitem, hrun⟩ := run_bind hrun
      cases hrun
      have hfollows := topLevelItem_follows hg h hitem
      have hnext : Blocks.Ordered ts start d ⟨bs.done, b⟩ :=
        ⟨hfits _ rfl, hgoes.laid, h.ahead.trans hgoes.here,
          List.IsSuffix.trans (Cursor.le_def.mp hle) h.rest, hfollows⟩
      simpa using hnext

theorem file_follows {p : Program} (hlaid : InOrder 0 ts)
    (hrun : file g (Cursor.ofTokens ts) = .ok (p, d)) : p.blocks.Pairwise (Follows ts) := by
  obtain ⟨l, _, hl, hrun⟩ := run_bind hrun
  cases hl
  obtain ⟨bs, _, hsteps, hlast⟩ := run_bind hrun
  cases hlast
  have hempty : Blocks.Ordered ts (Cursor.ofTokens ts).here.offset (Cursor.ofTokens ts)
      ⟨[], emptyBlock none (Cursor.ofTokens ts).here⟩ :=
    ⟨emptyBlock_fits .nil le_rfl le_rfl (by simp), ofTokens_laid hlaid, le_rfl, List.suffix_rfl,
      List.pairwise_singleton _ _⟩
  obtain ⟨_, hbs, -⟩ := iterate_induction
    (I := fun c bs => bs.Ordered ts (Cursor.ofTokens ts).here.offset c)
    (fun hinv hstep => fileStep_ordered hg hr hn hinv hstep _ rfl) hempty hsteps
  exact List.pairwise_reverse.mpr (closeBlock_follows hbs.follows d.last bs.done.isEmpty)

end

theorem lexeme_ne_empty {p : Piece} {t : Token} (hp : p.text ≠ []) (h : p.token = .ok t) :
    t.lexeme ≠ "" := by
  unfold Piece.token at h
  split at h
  case h_1 | h_2 =>
    cases h
    simpa using hp
  case h_3 =>
    cases h
    simp
  case h_4 => cases h

theorem lexeme_ne_empty_ofCode {doc : Option String} {l : Location} {cs : List Char}
    {ts : List Token} (h : Token.ofPieces doc (Piece.ofCode l cs) = .ok ts) :
    ∀ t ∈ ts, t.lexeme ≠ "" := by
  fun_induction Piece.ofCode l cs generalizing doc ts with
  | case1 =>
    cases h
    simp
  | case2 l c cs scanned text rest =>
    rename_i n ih
    obtain ⟨t, ht, ⟨_, hts⟩ | ⟨us, hus, rfl⟩⟩ := Token.ofPieces_cases h
    · exact ih hts
    · have hlexeme : t.lexeme ≠ "" := lexeme_ne_empty (List.cons_ne_nil _ _) ht
      exact List.forall_mem_cons.mpr ⟨hlexeme, ih hus⟩

theorem location_lt_finish {t : Token} (h : t.lexeme ≠ "") :
    t.location.offset < t.finish.offset := by
  have hsize : t.lexeme.utf8ByteSize ≠ 0 := by simpa using h
  rw [Token.finish, Location.offset_advanceOver, String.ofList_toList]
  omega

theorem InOrder.of_suffix {n : Nat} {ts us : List Token} (h : InOrder n ts) (hs : us <:+ ts) :
    ∃ m, InOrder m us := by
  induction ts generalizing n with
  | nil =>
    rw [List.suffix_nil.mp hs]
    exact ⟨n, h⟩
  | cons t ts ih =>
    rcases List.suffix_cons_iff.mp hs with rfl | hs
    · exact ⟨n, h⟩
    · exact ih h.2 hs

theorem HeaderAt.lt {ts : List Token} {start finish : Location} (h : HeaderAt ts start finish)
    (hlaid : InOrder 0 ts) (hlexeme : ∀ t ∈ ts, t.lexeme ≠ "") : start.offset < finish.offset := by
  obtain ⟨t, rest, hsuffix, -, rfl, rfl⟩ := h
  have ht : t.location.offset < t.finish.offset :=
    location_lt_finish (hlexeme t (List.IsSuffix.subset hsuffix List.mem_cons_self))
  obtain ⟨m, -, hrest⟩ := hlaid.of_suffix hsuffix
  cases rest with
  | nil => exact ht
  | cons u rest =>
    have hu : t.finish.offset ≤ u.finish.offset := hrest.1.trans u.location_le_finish
    simp only [headerFinish]
    split
    · omega
    · exact ht

end Grammar

open Grammar

/-- The blocks of a source that parses follow one another: of two blocks the contents of the first
lie before the second, and the contents of the second after the first. The first ends with a closing
brace behind its contents, and then before the second begins, or with the header of a namespace
behind them. They overlap exactly if that header is the header of the second, and then in it. -/
theorem Program.blocks_overlap_in_headers {source : String} {p : Program}
    (h : Program.ofSource source = .ok p) : ∃ ts, Token.ofSource source = .ok ts ∧
      p.blocks.Pairwise fun b b' => Follows ts b b' ∧
        (b'.span.start.offset < b.span.finish.offset ↔
          HeaderAt ts b'.span.start b.span.finish) := by
  unfold Program.ofSource at h
  split at h
  · next ts hts =>
    refine ⟨ts, hts, ?_⟩
    have hlaid : InOrder 0 ts := inOrder_ofSource hts
    have hlexeme : ∀ t ∈ ts, t.lexeme ≠ "" := lexeme_ne_empty_ofCode hts
    unfold Program.ofTokens Parser.run at h
    split at h
    · next c hrun =>
      cases h
      have hblocks : p.blocks.Pairwise (Follows ts) :=
        file_follows (levels_gives _) (levels_reads _) ts.length.lt_succ_self hlaid hrun
      refine hblocks.imp fun {b b'} hb => ⟨hb, ?_⟩
      constructor
      · intro hover
        obtain ⟨l, _, ⟨_, hle⟩ | ⟨hheader, rfl | hle⟩⟩ := hb.ends
        · omega
        · exact hheader
        · omega
      · exact fun hheader => hheader.lt hlaid hlexeme
    · cases h
  · cases h

/-- A namespace in braces, one without, one without name that nothing is in, and two more. -/
def Sample.mixedBlocks : String :=
  let head := "<?php namespace A { class X {} } namespace B; use A\\X; "
  head ++ "namespace; namespace C; class Z {} namespace D;"

theorem Program.blocks_overlap_in_headers_mixed :
    ∃ p, Program.ofSource Sample.mixedBlocks = .ok p ∧
      p.blocks.map (fun b => (b.name, b.span.start.offset, b.span.finish.offset)) =
        [(some "A", 6, 32), (some "B", 33, 64), (some "C", 66, 101), (some "D", 90, 102)] ∧
      ∃ ts, Token.ofSource Sample.mixedBlocks = .ok ts ∧ p.blocks.Pairwise fun b b' =>
        Follows ts b b' ∧ (b'.span.start.offset < b.span.finish.offset ↔
          HeaderAt ts b'.span.start b.span.finish) := by
  have hread : (Program.ofSource Sample.mixedBlocks).toOption.map
      (fun p => p.blocks.map fun b => (b.name, b.span.start.offset, b.span.finish.offset)) =
        some [(some "A", 6, 32), (some "B", 33, 64), (some "C", 66, 101), (some "D", 90, 102)] := by
    decide +kernel
  cases hp : Program.ofSource Sample.mixedBlocks with
  | error e => simp [hp, Except.toOption] at hread
  | ok p =>
    simp only [hp, Except.toOption, Option.map_some, Option.some.injEq] at hread
    exact ⟨p, rfl, hread, Program.blocks_overlap_in_headers hp⟩

/-- Two namespaces without braces, each with a class. -/
def Sample.unbraced : String := "<?php namespace A; class X {} namespace B; class Y {}"

/-- Two blocks may overlap: the first of these two ends with the header of the second. -/
theorem Program.blocks_may_overlap :
    (Program.ofSource Sample.unbraced).toOption.map
      (fun p => p.blocks.map fun b => (b.name, b.span.start.offset, b.span.finish.offset)) =
        some [(some "A", 6, 41), (some "B", 30, 53)] := by
  decide +kernel

end ContractAudit
