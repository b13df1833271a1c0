import ContractAudit.Token.Basic

/-! Doc comments and the tokens that take them. A source is a stream of items, each a token or an
error. Main statement: the tokens of the source are its items in order, but for trivia and doc
comments, each with the last doc comment since the token before it; and the first error of the
stream is the error of the whole. -/
namespace ContractAudit.Token

variable {items ts : List Token} {t : Token} {ps : List Piece} {p : Piece} {doc : Option String}

/-- A token of the program, neither trivia nor a doc comment. -/
def Kept (t : Token) : Prop := t.kind ≠ .docComment ∧ t.kind.isTrivia = false

/-- Among the items before a token, the one at place `i` is a doc comment, the last one of them, and
no kept item has come after it. -/
structure Waits (before : List Token) (i : Nat) : Prop where
  comment : ∃ d, before[i]? = some d ∧ d.kind = .docComment
  last : ∀ n t, i < n → before[n]? = some t → t.kind ≠ .docComment
  unclaimed : ∀ n t, i < n → before[n]? = some t → ¬ t.Kept

/-- Where a token comes from: the place of its item, and that of the doc comment it takes. -/
structure Origin where
  place : Nat
  comment : Option Nat

def lexemeAt? (items : List Token) (i : Nat) : Option String := items[i]?.map (·.lexeme)

/-- The item with the text of its doc comment. -/
def Origin.token? (items : List Token) (o : Origin) : Option Token :=
  items[o.place]?.map fun t => { t with doc := o.comment.bind (lexemeAt? items) }

/-- The tokens are the kept items from place `n` on, in order, and each takes the doc comment that
waits for it, if there is one. -/
structure Attached (n : Nat) (items ts : List Token) (origins : List Origin) : Prop where
  tokens : origins.map (Origin.token? items) = ts.map some
  places : ∀ j, j ∈ origins.map Origin.place ↔ n ≤ j ∧ ∃ t, items[j]? = some t ∧ t.Kept
  increasing : (origins.map Origin.place).Pairwise (· < ·)
  comments : ∀ o ∈ origins, ∀ i, o.comment = some i ↔ Waits (items.take o.place) i

section
variable {before : List Token} {i : Nat}

theorem waits_nil : ¬ Waits [] i := by
  rintro ⟨⟨d, hd, -⟩, -, -⟩
  simp at hd

theorem at_concat {n : Nat} {u : Token} :
    (before ++ [t])[n]? = some u ↔ before[n]? = some u ∨ n = before.length ∧ t = u := by
  rcases Nat.lt_trichotomy n before.length with hlt | rfl | hgt
  · rw [List.getElem?_append_left hlt]
    simp [Nat.ne_of_lt hlt]
  · simp
  · rw [List.getElem?_eq_none (by simp; omega), List.getElem?_eq_none (by omega)]
    simp [Nat.ne_of_gt hgt]

theorem lt_of_at {n : Nat} {u : Token} (h : before[n]? = some u) : n < before.length :=
  (List.getElem?_eq_some_iff.mp h).1

theorem waits_concat_comment (h : t.kind = .docComment) :
    Waits (before ++ [t]) i ↔ i = before.length := by
  constructor
  · intro hw
    obtain ⟨d, hd, -⟩ := hw.comment
    rcases at_concat.mp hd with hd | ⟨hi, -⟩
    · exact absurd h (hw.last _ t (lt_of_at hd) (at_concat.mpr (.inr ⟨rfl, rfl⟩)))
    · exact hi
  · rintro rfl
    have hnone {n : Nat} {u : Token} (hn : before.length < n) : (before ++ [t])[n]? ≠ some u := by
      intro hu
      rcases at_concat.mp hu with hu | ⟨rfl, -⟩
      · exact absurd (lt_of_at hu) (by omega)
      · omega
    exact ⟨⟨t, at_concat.mpr (.inr ⟨rfl, rfl⟩), h⟩, fun n u hn hu => absurd hu (hnone hn),
      fun n u hn hu => absurd hu (hnone hn)⟩

theorem waits_concat_trivia (h : t.kind.isTrivia = true) :
    Waits (before ++ [t]) i ↔ Waits before i := by
  have hcomment : t.kind ≠ .docComment := by
    intro hk
    rw [hk] at h
    cases h
  constructor
  · intro hw
    obtain ⟨d, hd, hdoc⟩ := hw.comment
    refine ⟨⟨d, ?_, hdoc⟩, fun n u hn hu => hw.last n u hn (at_concat.mpr (.inl hu)),
      fun n u hn hu => hw.unclaimed n u hn (at_concat.mpr (.inl hu))⟩
    rcases at_concat.mp hd with hd | ⟨-, rfl⟩
    · exact hd
    · exact absurd hdoc hcomment
  · intro hw
    obtain ⟨d, hd, hdoc⟩ := hw.comment
    refine ⟨⟨d, at_concat.mpr (.inl hd), hdoc⟩, fun n u hn hu => ?_, fun n u hn hu => ?_⟩
    · rcases at_concat.mp hu with hu | ⟨-, rfl⟩
      · exact hw.last n u hn hu
      · exact hcomment
    · rcases at_concat.mp hu with hu | ⟨-, rfl⟩
      · exact hw.unclaimed n u hn hu
      · exact fun hkept => absurd h (by simp [hkept.2])

/- A kept item takes what waited for it. -/
theorem not_waits_concat_kept (h : t.Kept) : ¬ Waits (before ++ [t]) i := by
  intro hw
  obtain ⟨d, hd, hdoc⟩ := hw.comment
  rcases at_concat.mp hd with hd | ⟨-, rfl⟩
  · exact hw.unclaimed _ t (lt_of_at hd) (at_concat.mpr (.inr ⟨rfl, rfl⟩)) h
  · exact h.1 hdoc

end

/-- The tokens among readable items, `doc` being the text of the doc comment that waits. -/
def attach (doc : Option String) : List Token → List Token
  | [] => []
  | t :: ts =>
    if t.kind = .docComment then attach (some t.lexeme) ts
    else if t.kind.isTrivia then attach doc ts
    else { t with doc } :: attach none ts

/-- Where these tokens come from, `n` being the place of the first item and `waiting` that of the
doc comment. -/
def origins (n : Nat) (waiting : Option Nat) : List Token → List Origin
  | [] => []
  | t :: ts =>
    if t.kind = .docComment then origins (n + 1) (some n) ts
    else if t.kind.isTrivia then origins (n + 1) waiting ts
    else ⟨n, waiting⟩ :: origins (n + 1) none ts

namespace Attached
variable {n : Nat} {os : List Origin}

theorem nil (items : List Token) : Attached items.length items [] [] where
  tokens := rfl
  places j := by
    simp only [List.map_nil, List.not_mem_nil, false_iff]
    rintro ⟨hle, t, ht, -⟩
    exact absurd (lt_of_at ht) (by omega)
  increasing := .nil
  comments o ho := by cases ho

theorem skip (h : Attached (n + 1) items ts os) (ht : items[n]? = some t) (hkept : ¬ t.Kept) :
    Attached n items ts os where
  tokens := h.tokens
  places j := by
    rw [h.places]
    refine ⟨fun hj => ⟨by omega, hj.2⟩, ?_⟩
    rintro ⟨hle, u, hu, hukept⟩
    have hne : j ≠ n := by
      rintro rfl
      exact hkept (Option.some.inj (ht.symm.trans hu) ▸ hukept)
    exact ⟨by omega, u, hu, hukept⟩
  increasing := h.increasing
  comments := h.comments

theorem cons (h : Attached (n + 1) items ts os) (ht : items[n]? = some t) (hkept : t.Kept)
    {waiting : Option Nat} (hwaiting : ∀ i, waiting = some i ↔ Waits (items.take n) i) :
    Attached n items ({ t with doc := waiting.bind (lexemeAt? items) } :: ts)
      (⟨n, waiting⟩ :: os) where
  tokens := by
    rw [List.map_cons, List.map_cons, h.tokens, Origin.token?, ht]
    rfl
  places j := by
    rw [List.map_cons, List.mem_cons, h.places]
    constructor
    · rintro (rfl | hj)
      · exact ⟨Nat.le_refl _, t, ht, hkept⟩
      · exact ⟨by omega, hj.2⟩
    · rintro ⟨hle, hu⟩
      rcases Nat.eq_or_lt_of_le hle with rfl | hlt
      · exact .inl rfl
      · exact .inr ⟨hlt, hu⟩
  increasing := by
    rw [List.map_cons, List.pairwise_cons]
    exact ⟨fun j hj => ((h.places j).mp hj).1, h.increasing⟩
  comments o ho := by
    rcases List.mem_cons.mp ho with rfl | ho
    · exact hwaiting
    · exact h.comments o ho

theorem kept_at (h : Attached n items ts os) {o : Origin} (ho : o ∈ os) :
    ∃ t, items[o.place]? = some t ∧ t.Kept :=
  ((h.places o.place).mp (List.mem_map_of_mem ho)).2

/- Between a doc comment and a later token stands the token that has taken it. -/
theorem once (h : Attached n items ts os) : (os.filterMap (·.comment)).Nodup := by
  have hincreasing := List.pairwise_map.mp h.increasing
  refine List.pairwise_filterMap.mpr (List.Pairwise.imp_of_mem ?_ hincreasing)
  rintro o o' ho ho' hlt i hi _ hi' rfl
  obtain ⟨d, hd, -⟩ := ((h.comments o ho i).mp hi).comment
  obtain ⟨t, ht, hkept⟩ := h.kept_at ho
  have hbefore : i < o.place := by
    have hi := lt_of_at hd
    rw [List.length_take] at hi
    omega
  refine ((h.comments o' ho' i).mp hi').unclaimed o.place t hbefore ?_ hkept
  rw [List.getElem?_take_of_lt hlt]
  exact ht

end Attached

/- The induction is on the items still to come; what waits is told by those before. -/
theorem attached_origins (before after : List Token) (waiting : Option Nat)
    (hwaiting : ∀ i, waiting = some i ↔ Waits before i) :
    Attached before.length (before ++ after)
      (attach (waiting.bind (lexemeAt? (before ++ after))) after)
      (origins before.length waiting after) := by
  induction after generalizing before waiting with
  | nil =>
    rw [List.append_nil]
    exact .nil before
  | cons t after ih =>
    have hat : (before ++ t :: after)[before.length]? = some t := by simp
    have hlater (waiting : Option Nat) (h : ∀ i, waiting = some i ↔ Waits (before ++ [t]) i) :=
      ih (before ++ [t]) waiting h
    simp only [List.length_append, List.length_singleton, List.append_assoc,
      List.singleton_append] at hlater
    rw [attach, origins]
    by_cases hcomment : t.kind = .docComment
    · rw [if_pos hcomment, if_pos hcomment]
      have hnew (i : Nat) : some before.length = some i ↔ Waits (before ++ [t]) i := by
        rw [waits_concat_comment hcomment, Option.some.injEq, eq_comm]
      have htext : (some before.length).bind (lexemeAt? (before ++ t :: after)) =
          some t.lexeme := by
        simp [lexemeAt?]
      rw [← htext]
      exact (hlater _ hnew).skip hat fun hkept => hkept.1 hcomment
    · rw [if_neg hcomment, if_neg hcomment]
      by_cases htrivia : t.kind.isTrivia
      · rw [if_pos htrivia, if_pos htrivia]
        have hsame (i : Nat) : waiting = some i ↔ Waits (before ++ [t]) i := by
          rw [waits_concat_trivia htrivia, hwaiting]
        exact (hlater _ hsame).skip hat fun hkept => absurd htrivia (by simp [hkept.2])
      · rw [if_neg htrivia, if_neg htrivia]
        have hkept : t.Kept := ⟨hcomment, by simpa using htrivia⟩
        have hnone (i : Nat) : none = some i ↔ Waits (before ++ [t]) i := by
          simp [not_waits_concat_kept hkept]
        refine (hlater _ hnone).cons hat hkept ?_
        rwa [List.take_left]

/- The first piece is left out, or its token is the first one. -/
theorem ofPieces_cases (h : ofPieces doc (p :: ps) = .ok ts) :
    ∃ t, p.token = .ok t ∧ ((∃ later, ofPieces later ps = .ok ts) ∨
      ∃ us, ofPieces none ps = .ok us ∧ ts = { t with doc } :: us) := by
  rw [ofPieces] at h
  split at h
  · cases h
  · next t ht =>
    refine ⟨t, ht, ?_⟩
    split at h
    · exact .inl ⟨_, h⟩
    · split at h
      · exact .inl ⟨_, h⟩
      · split at h
        · cases h
        · next us hus =>
          cases h
          exact .inr ⟨us, hus, rfl⟩

theorem ofPieces_readable (h : ps.map Piece.token = items.map .ok) :
    ofPieces doc ps = .ok (attach doc items) := by
  induction items generalizing ps doc with
  | nil =>
    obtain rfl := List.map_eq_nil_iff.mp h
    rfl
  | cons t items ih =>
    obtain ⟨p, ps, rfl, hp, hps⟩ := List.map_eq_cons_iff.mp h
    simp only [ofPieces, attach, hp, ih hps]
    split
    · rfl
    · split <;> rfl

theorem ofPieces_unreadable {e : ParseError} {after : List (Except ParseError Token)}
    (h : ps.map Piece.token = items.map .ok ++ .error e :: after) : ofPieces doc ps = .error e := by
  induction items generalizing ps doc with
  | nil =>
    obtain ⟨p, ps, rfl, hp, -⟩ := List.map_eq_cons_iff.mp h
    simp only [ofPieces, hp]
  | cons t items ih =>
    obtain ⟨p, ps, rfl, hp, hps⟩ := List.map_eq_cons_iff.mp h
    simp only [ofPieces, hp, ih hps, ite_self]

/- Either there is a first error or all items are readable. -/
theorem stream_cases (stream : List (Except ParseError Token)) :
    (∃ (items : List Token) (e : ParseError) (after : List (Except ParseError Token)),
      stream = items.map .ok ++ .error e :: after) ∨
      ∃ items : List Token, stream = items.map .ok := by
  induction stream with
  | nil => exact .inr ⟨[], rfl⟩
  | cons x stream ih =>
    cases x with
    | error e => exact .inl ⟨[], e, stream, rfl⟩
    | ok t =>
      rcases ih with ⟨items, e, after, rfl⟩ | ⟨items, rfl⟩
      · exact .inl ⟨t :: items, e, after, rfl⟩
      · exact .inr ⟨t :: items, rfl⟩

/-- The items of a source, as they are read one by one. -/
def stream (source : String) : List (Except ParseError Token) :=
  (Piece.ofSource source).map Piece.token

/-- If the items of a source have an error among them, the first one is the error of the source.
Otherwise its tokens are the items that are neither trivia nor doc comments, in order, each with the
last doc comment between the token before and itself, and no doc comment is taken twice. -/
theorem ofSource_attaches (source : String) :
    (∃ (items : List Token) (e : ParseError) (after : List (Except ParseError Token)),
      stream source = items.map .ok ++ .error e :: after ∧ ofSource source = .error e) ∨
    ∃ (items ts : List Token) (origins : List Origin), stream source = items.map .ok ∧
      ofSource source = .ok ts ∧ Attached 0 items ts origins ∧
        (origins.filterMap (·.comment)).Nodup := by
  rcases stream_cases (stream source) with ⟨items, e, after, hitems⟩ | ⟨items, hitems⟩
  · exact .inl ⟨items, e, after, hitems, ofPieces_unreadable hitems⟩
  · have hattached := attached_origins [] items none (by simp [waits_nil])
    exact .inr ⟨items, _, _, hitems, ofPieces_readable hitems, hattached, hattached.once⟩

end ContractAudit.Token
