import ContractAudit.Proofs.TypeMeaning
import ContractAudit.Proofs.TypeNames

/-! The texts of types. Main statement: a type whose atoms are plain words is read back from its
text, and such are the types that the methods of a source declare. -/
namespace ContractAudit

open Text

section
variable {p : Char → Bool} {lead tail cs : List Char}

theorem Text.trimStartChars_append (hlead : ∀ c ∈ lead, p c = true) (hcs : ∀ c ∈ cs, p c = false) :
    trimStartChars p (lead ++ cs) = cs :=
  Token.dropWhile_append hlead fun c hc => hcs c (List.mem_of_mem_head? hc)

theorem Text.trimEndChars_append (htail : ∀ c ∈ tail, p c = true) (hcs : ∀ c ∈ cs, p c = false) :
    trimEndChars p (cs ++ tail) = cs := by
  have hdrop : (tail.reverse ++ cs.reverse).dropWhile p = cs.reverse :=
    trimStartChars_append (by simpa using htail) (by simpa using hcs)
  rw [trimEndChars, List.reverse_append, hdrop, List.reverse_reverse]

theorem Text.trimChars_eq_self (hcs : ∀ c ∈ cs, p c = false) : trimChars p cs = cs := by
  have hstart : trimStartChars p ([] ++ cs) = cs := trimStartChars_append (by simp) hcs
  have hend : trimEndChars p (cs ++ []) = cs := trimEndChars_append (by simp) hcs
  rw [List.nil_append] at hstart
  rw [List.append_nil] at hend
  rw [trimChars, hstart, hend]

end

section
variable {sep c : Char} {piece : List Char} {pieces : List (List Char)}

theorem mem_of_mem_intercalate (h : c ∈ [sep].intercalate pieces) :
    c = sep ∨ ∃ piece ∈ pieces, c ∈ piece := by
  induction pieces with
  | nil => cases h
  | cons piece pieces ih =>
    cases pieces with
    | nil => exact .inr ⟨piece, List.mem_cons_self, by simpa using h⟩
    | cons next pieces =>
      rw [List.intercalate_cons_cons] at h
      rcases List.mem_append.mp h with h | h
      · rcases List.mem_append.mp h with h | h
        · exact .inr ⟨piece, List.mem_cons_self, h⟩
        · exact .inl (List.mem_singleton.mp h)
      · rcases ih h with h | ⟨p, hp, h⟩
        · exact .inl h
        · exact .inr ⟨p, List.mem_cons_of_mem _ hp, h⟩

theorem head?_intercalate (h : piece ≠ []) :
    ([sep].intercalate (piece :: pieces)).head? = piece.head? := by
  cases pieces with
  | nil => rw [List.intercalate_singleton]
  | cons next pieces =>
    rw [List.intercalate_cons_cons, List.append_assoc, List.head?_append_of_ne_nil _ h]

end

theorem map_map_eq_self {α β : Type} {f : β → α} {g : α → β} {as : List α}
    (h : ∀ a ∈ as, f (g a) = a) : (as.map g).map f = as := by
  rw [List.map_map]
  exact (List.map_congr_left h).trans (List.map_id as)

namespace Signature

/-- A type whose text can be read back. -/
structure Readable (s : Signature) : Prop extends s.WellFormed where
  atoms : ∀ c ∈ s.alternatives, ∀ a ∈ c, IsAtom a
  apart : s.alternatives.Pairwise fun c d => c.same d = false

/-- The atoms of an intersection with their sign between them. -/
def joined (c : Conjunction) : List Char := ['&'].intercalate (c.map String.toList)

theorem toList_conjunctionText (alone : Bool) (c : Conjunction) :
    (conjunctionText alone c).toList = joined c ∨
      (conjunctionText alone c).toList = ['('] ++ (joined c ++ [')']) := by
  have hjoined : ("&".intercalate c).toList = joined c := by simp [joined]
  unfold conjunctionText
  dsimp only
  split
  · right
    change ("(" ++ "&".intercalate c ++ ")").toList = _
    rw [String.toList_append, String.toList_append, hjoined]
    rfl
  · exact .inl hjoined

section
variable {c : Conjunction} (hatoms : ∀ a ∈ c, IsAtom a)
include hatoms

theorem joined_plain :
    ∀ x ∈ joined c, isBlank x = false ∧ x ≠ '|' ∧ x ≠ '(' ∧ x ≠ ')' := by
  intro x hx
  rcases mem_of_mem_intercalate hx with rfl | ⟨piece, hpiece, hx⟩
  · decide
  · obtain ⟨a, ha, rfl⟩ := List.mem_map.mp hpiece
    obtain ⟨hblank, hsign⟩ := (hatoms a ha).plain x hx
    simp only [List.mem_cons, List.not_mem_nil, or_false, not_or] at hsign
    exact ⟨hblank, hsign.1, hsign.2.2⟩

theorem conjunctionText_plain (alone : Bool) :
    ∀ x ∈ (conjunctionText alone c).toList, isBlank x = false ∧ x ≠ '|' := by
  have hjoined : ∀ x ∈ joined c, isBlank x = false ∧ x ≠ '|' :=
    fun x hx => ⟨(joined_plain hatoms x hx).1, (joined_plain hatoms x hx).2.1⟩
  rcases toList_conjunctionText alone c with h | h
  · rw [h]
    exact hjoined
  · rw [h, List.forall_mem_append, List.forall_mem_append]
    exact ⟨List.forall_mem_singleton.mpr (by decide), hjoined,
      List.forall_mem_singleton.mpr (by decide)⟩

theorem trim_conjunctionText (alone : Bool) :
    trimEndChars (· == ')') (trimStartChars (· == '(')
      (trimChars isBlank (conjunctionText alone c).toList)) = joined c := by
  have hopen : ∀ x ∈ joined c, (x == '(') = false :=
    fun x hx => beq_eq_false_iff_ne.mpr (joined_plain hatoms x hx).2.2.1
  have hclose : ∀ x ∈ joined c, (x == ')') = false :=
    fun x hx => beq_eq_false_iff_ne.mpr (joined_plain hatoms x hx).2.2.2
  rw [trimChars_eq_self fun x hx => (conjunctionText_plain hatoms alone x hx).1]
  rcases toList_conjunctionText alone c with h | h
  · have hstart : trimStartChars (· == '(') ([] ++ joined c) = joined c :=
      trimStartChars_append (by simp) hopen
    have hend : trimEndChars (· == ')') (joined c ++ []) = joined c :=
      trimEndChars_append (by simp) hclose
    rw [List.nil_append] at hstart
    rw [List.append_nil] at hend
    rw [h, hstart, hend]
  · have hstart : ∀ x ∈ joined c ++ [')'], (x == '(') = false :=
      List.forall_mem_append.mpr ⟨hopen, List.forall_mem_singleton.mpr rfl⟩
    rw [h, trimStartChars_append (List.forall_mem_singleton.mpr rfl) hstart,
      trimEndChars_append (List.forall_mem_singleton.mpr rfl) hclose]

theorem conjunctionText_head? (hne : c ≠ []) (alone : Bool) :
    ∃ x, (conjunctionText alone c).toList.head? = some x ∧ x ≠ '?' := by
  rcases toList_conjunctionText alone c with h | h
  · obtain ⟨a, as, rfl⟩ := List.exists_cons_of_ne_nil hne
    have ha : IsAtom a := hatoms a List.mem_cons_self
    obtain ⟨x, xs, hx⟩ := List.exists_cons_of_ne_nil ha.ne_nil
    have hhead : a.toList.head? = some x := by rw [hx]; rfl
    rw [h, joined, List.map_cons, head?_intercalate ha.ne_nil]
    exact ⟨x, hhead, (ha.first x hhead).2⟩
  · rw [h]
    exact ⟨'(', rfl, by decide⟩

theorem splitChars_joined (hne : c ≠ []) : splitChars '&' (joined c) = c.map String.toList := by
  refine Throws.splitChars_intercalate (by simpa using hne) ?_
  intro piece hpiece hmem
  obtain ⟨a, ha, rfl⟩ := List.mem_map.mp hpiece
  simpa using ((hatoms a ha).plain '&' hmem).2

omit hatoms in
theorem normalize_eq_self {a : String} (ha : IsAtom a) (hnormal : IsNormal a) :
    normalize a = a := by
  have hlead : dropLeading '\\' a = a :=
    dropLeading_eq_self fun hhead => (ha.first '\\' hhead).1 rfl
  unfold normalize
  rw [hlead]
  dsimp only
  split
  · next hscalar => exact hnormal hscalar
  · rfl

theorem parseConjunction_text (hne : c ≠ []) (hnormal : ∀ a ∈ c, IsNormal a) (alone : Bool) :
    parseConjunction (conjunctionText alone c).toList = c := by
  have hread : (c.map String.toList).map
      (fun a => normalize (String.ofList (trimChars isBlank a))) = c := by
    refine map_map_eq_self fun a ha => ?_
    rw [trimChars_eq_self fun x hx => ((hatoms a ha).plain x hx).1, String.ofList_toList,
      normalize_eq_self (hatoms a ha) (hnormal a ha)]
  unfold parseConjunction
  dsimp only
  rw [trim_conjunctionText hatoms, splitChars_joined hatoms hne, hread]
  refine List.filter_eq_self.mpr fun a ha => ?_
  simpa using (hatoms a ha).ne_nil

end

theorem toList_text (s : Signature) : s.text.toList = ['|'].intercalate
    (s.alternatives.map fun c => (conjunctionText (s.alternatives.length ≤ 1) c).toList) := by
  simp [text, Function.comp_def]

namespace Readable
variable {s : Signature} (h : s.Readable)
include h

theorem text_plain : ∀ x ∈ s.text.toList, isBlank x = false := by
  rw [toList_text]
  intro x hx
  rcases mem_of_mem_intercalate hx with rfl | ⟨piece, hpiece, hx⟩
  · decide
  · obtain ⟨c, hc, rfl⟩ := List.mem_map.mp hpiece
    exact (conjunctionText_plain (h.atoms c hc) _ x hx).1

theorem text_head? : s.text.toList.head? ≠ some '?' := by
  rw [toList_text]
  cases hs : s.alternatives with
  | nil => simp
  | cons c cs =>
    have hc : c ∈ s.alternatives := by simp [hs]
    obtain ⟨x, hx, hne⟩ := conjunctionText_head? (h.atoms c hc) (h.inhabited c hc)
      ((c :: cs).length ≤ 1)
    have hpiece : (conjunctionText ((c :: cs).length ≤ 1) c).toList ≠ [] := by
      intro hnil
      rw [hnil] at hx
      cases hx
    rw [List.map_cons, head?_intercalate hpiece, hx]
    simpa using hne

theorem parseAlternatives_text : parseAlternatives s.text.toList = s.alternatives := by
  by_cases hs : s.alternatives = []
  · rw [toList_text, hs]
    rfl
  · have hsplit : splitChars '|' s.text.toList =
        s.alternatives.map fun c => (conjunctionText (s.alternatives.length ≤ 1) c).toList := by
      rw [toList_text]
      refine Throws.splitChars_intercalate (by simpa using hs) ?_
      intro piece hpiece hmem
      obtain ⟨c, hc, rfl⟩ := List.mem_map.mp hpiece
      exact (conjunctionText_plain (h.atoms c hc) _ '|' hmem).2 rfl
    have hread : ∀ c ∈ s.alternatives,
        parseConjunction (conjunctionText (s.alternatives.length ≤ 1) c).toList = c :=
      fun c hc => parseConjunction_text (h.atoms c hc) (h.inhabited c hc) (h.normal c hc) _
    rw [parseAlternatives, hsplit, map_map_eq_self hread]
    exact List.filter_eq_self.mpr fun c hc => by simpa using h.inhabited c hc

end Readable

theorem Readable.parse_text {s : Signature} (h : s.Readable) : parse s.text = s := by
  unfold parse
  rw [trimChars_eq_self h.text_plain]
  split
  · next rest heq => exact absurd (by rw [heq]; rfl) h.text_head?
  · rw [h.parseAlternatives_text, ofAlternatives, distinct_eq_self h.apart]

theorem hintNamesList_eq (hs : List TypeHint) : hintNamesList hs = hs.flatMap hintNames := by
  induction hs with
  | nil => rfl
  | cons h hs ih => rw [hintNamesList, ih, List.flatMap_cons]

theorem hintAlternatives_of_builtOf (scope : Scope) {P : Name → Prop} {h : TypeHint}
    (hh : h.BuiltOf P) : ∀ c ∈ hintAlternatives scope h,
      c ≠ [] ∧ ∀ a ∈ c, a = "null" ∨ ∃ n, P n ∧ a = scope.atom n := by
  induction hh with
  | @named n hn =>
    rw [hintAlternatives]
    exact List.forall_mem_singleton.mpr
      ⟨by simp, List.forall_mem_singleton.mpr (.inr ⟨n, hn, rfl⟩)⟩
  | nullable _ ih =>
    rw [hintAlternatives, List.forall_mem_append]
    exact ⟨ih, List.forall_mem_singleton.mpr ⟨by simp, List.forall_mem_singleton.mpr (.inl rfl)⟩⟩
  | union _ ih =>
    rw [hintAlternatives, hintAlternativesList_eq]
    intro c hc
    obtain ⟨h, hh, hc⟩ := List.mem_flatMap.mp hc
    exact ih h hh c hc
  | @intersection hs hne hhs =>
    rw [hintAlternatives, hintNamesList_eq]
    refine List.forall_mem_singleton.mpr ⟨?_, ?_⟩
    · obtain ⟨h, hs, rfl⟩ := List.exists_cons_of_ne_nil hne
      obtain ⟨n, _, rfl⟩ := hhs h List.mem_cons_self
      simp [hintNames]
    · refine List.forall_mem_map.mpr fun n hn => .inr ⟨n, ?_, rfl⟩
      obtain ⟨h, hh, hn⟩ := List.mem_flatMap.mp hn
      obtain ⟨n', hn', rfl⟩ := hhs h hh
      rw [hintNames, List.mem_singleton] at hn
      rwa [hn]

/-- A word that stands for itself in the text of a type. -/
structure IsPlain (a : String) : Prop where
  atom : IsAtom a
  normal : IsNormal a

theorem isPath_of_isScalar {a : String} (h : isScalar a = true) : IsPath a := by
  have hscalars : scalars.all
      (fun a => (splitChars '\\' a.toList).all Throws.isIdentifier) = true := by
    decide +kernel
  exact List.all_eq_true.mp hscalars a (List.contains_iff_mem.mp h)

theorem normalize_isPlain {a : String} (h : IsPath a) : IsPlain (normalize a) := by
  refine ⟨?_, normalize_isNormal a⟩
  unfold normalize
  rw [dropLeading_eq_self h.head?_ne]
  dsimp only
  split
  · next hscalar => exact (isPath_of_isScalar hscalar).isAtom
  · exact h.isAtom

theorem atom_isPlain {scope : Scope} (hself : IsPlain scope.self)
    (hparent : ∀ q ∈ scope.parent, IsPlain q) {n : Name} (hn : IsPath n.full) :
    IsPlain (scope.atom n) := by
  rcases scope.atom_cases n with h | h | h
  · rw [h]
    exact hself
  · exact hparent _ h
  · rw [h]
    exact normalize_isPlain hn

theorem ofHint_readable {scope : Scope} (hself : IsPlain scope.self)
    (hparent : ∀ q ∈ scope.parent, IsPlain q) {h : TypeHint}
    (hh : h.BuiltOf fun n => IsPath n.full) : (ofHint scope h).Readable := by
  have hnull : IsPlain "null" :=
    ⟨(isPath_of_isScalar (by decide)).isAtom, fun _ => by decide +kernel⟩
  have hplain : ∀ c ∈ hintAlternatives scope h, c ≠ [] ∧ ∀ a ∈ c, IsPlain a := by
    intro c hc
    obtain ⟨hne, hatoms⟩ := hintAlternatives_of_builtOf scope hh c hc
    refine ⟨hne, fun a ha => ?_⟩
    rcases hatoms a ha with rfl | ⟨n, hn, rfl⟩
    · exact hnull
    · exact atom_isPlain hself hparent hn
  have hformed : (ofHint scope h).WellFormed :=
    ofAlternatives_wellFormed fun c hc =>
      ⟨(hplain c hc).1, fun a ha => ((hplain c hc).2 a ha).normal⟩
  exact ⟨hformed, fun c hc a ha => ((hplain c (mem_of_mem_distinct hc)).2 a ha).atom,
    distinct_pairwise _ _⟩

theorem parentOf_isAtom {t : TypeDecl} (ht : t.Full) : ∀ q ∈ ClassInfo.parentOf t, IsAtom q := by
  intro q hq
  unfold ClassInfo.parentOf at hq
  split at hq
  · cases hq
  · obtain ⟨n, hn, rfl⟩ := Option.mem_map.mp hq
    exact (ht.parents n (List.mem_of_mem_head? hn)).isAtom

/-- A type is read back from its text. Such is every type that a method of a source declares, if
neither the class nor its parent has the name of a built-in type in other letters. It is not enough
that the class has none: `parent` stands for the name of the parent as it is declared. -/
theorem parse_undoes_text :
    (∀ s : Signature, s.Readable → parse s.text = s) ∧
      ∀ source p, Program.ofSource source = .ok p → ∀ t ∈ p.resolve.types,
        IsNormal t.fullName → (∀ q ∈ ClassInfo.parentOf t, IsNormal q) →
          ∀ m ∈ t.methods, ∀ h ∈ m.hints,
            (ofHint ⟨t.fullName, ClassInfo.parentOf t⟩ h).Readable := by
  refine ⟨fun s hs => hs.parse_text, ?_⟩
  intro source p hp t ht hself hparent m hm h hh
  have hfull : t.Full := Program.full_ofSource hp t ht
  have hplain : ∀ q ∈ ClassInfo.parentOf t, IsPlain q :=
    fun q hq => ⟨parentOf_isAtom hfull q hq, hparent q hq⟩
  have hname : IsPlain t.fullName := ⟨hfull.name, hself⟩
  exact ofHint_readable hname hplain (hfull.hints m hm h hh)

example : ofHint ⟨"B", some "INT"⟩ (.named ⟨"parent", some "parent", default⟩) = ⟨[["INT"]]⟩ ∧
    parse "INT" = ⟨[["int"]]⟩ := by
  decide +kernel

namespace Sample

/-- A class that declares a type of all forms. -/
def shelf : String :=
  "<?php namespace N; use D; class B extends A { function f(): (C&D)|NULL|parent; }"

theorem shelf_types : (Program.ofSource shelf).toOption.map (fun p => p.resolve.types.map fun t =>
    (t.fullName, ClassInfo.parentOf t, t.methods.map fun m => m.hints.map fun h =>
      (ofHint ⟨t.fullName, ClassInfo.parentOf t⟩ h).text)) =
    some [("N\\B", some "N\\A", [["(N\\C&D)|null|N\\A"]])] := by
  decide +kernel

end Sample

theorem parse_undoes_text_shelf :
    ∃ p, Program.ofSource Sample.shelf = .ok p ∧ ∃ t ∈ p.resolve.types, ∃ m ∈ t.methods,
      m.hints.map (fun h => (ofHint ⟨t.fullName, ClassInfo.parentOf t⟩ h).text) =
        ["(N\\C&D)|null|N\\A"] ∧
      ∀ h ∈ m.hints, parse (ofHint ⟨t.fullName, ClassInfo.parentOf t⟩ h).text =
        ofHint ⟨t.fullName, ClassInfo.parentOf t⟩ h := by
  obtain ⟨p, hsome, hread⟩ := Option.map_eq_some_iff.mp Sample.shelf_types
  have hp : Program.ofSource Sample.shelf = .ok p := by
    generalize Program.ofSource Sample.shelf = result at hsome
    cases result with
    | error e => cases hsome
    | ok q =>
      cases hsome
      rfl
  obtain ⟨t, ts, htypes, htype, -⟩ := List.map_eq_cons_iff.mp hread
  simp only [Prod.mk.injEq] at htype
  obtain ⟨hname, hparent, hmethods⟩ := htype
  obtain ⟨m, ms, hms, htexts, -⟩ := List.map_eq_cons_iff.mp hmethods
  have ht : t ∈ p.resolve.types := by simp [htypes]
  have hm : m ∈ t.methods := by simp [hms]
  have hself : IsNormal t.fullName := by
    rw [hname]
    exact fun h => absurd h (by decide +kernel)
  have hparents : ∀ q ∈ ClassInfo.parentOf t, IsNormal q := by
    rw [hparent]
    rintro q ⟨⟩
    exact fun h => absurd h (by decide +kernel)
  refine ⟨p, hp, t, ht, m, hm, htexts, fun h hh => parse_undoes_text.1 _ ?_⟩
  exact parse_undoes_text.2 _ p hp t ht hself hparents m hm h hh

end Signature
end ContractAudit
