import ContractAudit.Grammar.Declaration
import ContractAudit.Naming.Context
import ContractAudit.Proofs.DocPlaces
import ContractAudit.Proofs.DocTags

/-! The words of a source. Main statement: what is read as a name is a class name, perhaps absolute,
and what is read as a keyword is an identifier, the tag that echoes apart. -/
namespace ContractAudit

open Source Text Throws

theorem Text.dropLeading_eq_self {c : Char} {s : String} (h : s.toList.head? ≠ some c) :
    Text.dropLeading c s = s := by
  rw [Text.dropLeading]
  cases hs : s.toList with
  | nil => exact String.toList_inj.mp (by simp [hs])
  | cons d cs =>
    have hd : (d == c) = false := by simpa [hs] using h
    rw [List.dropWhile_cons_of_neg (by simp [hd]), ← hs, String.ofList_toList]

theorem Naming.toList_join (a b : String) :
    (Naming.join a b).toList = a.toList ++ '\\' :: b.toList := by
  change (a ++ "\\" ++ b).toList = _
  simp

def IsPath (s : String) : Prop := (splitChars '\\' s.toList).all isIdentifier = true

namespace IsPath
variable {s a b : String}

theorem join (ha : IsPath a) (hb : IsPath b) : IsPath (Naming.join a b) := by
  rw [IsPath, Naming.toList_join, splitChars_append_sep, List.all_append, Bool.and_eq_true]
  exact ⟨ha, hb⟩

/- What stands after the first backslash. -/
theorem rest (h : IsPath s) (hsplit : splitOnce '\\' s = some (a, b)) : IsPath b := by
  rw [splitOnce, List.span_eq_takeWhile_dropWhile] at hsplit
  have hchars : s.toList.takeWhile (· != '\\') ++ s.toList.dropWhile (· != '\\') = s.toList :=
    List.takeWhile_append_dropWhile
  have hfirst := List.head?_dropWhile_not (· != '\\') s.toList
  cases hafter : s.toList.dropWhile (· != '\\') with
  | nil =>
    simp only [hafter] at hsplit
    cases hsplit
  | cons c after =>
    simp only [hafter, Option.some.injEq, Prod.mk.injEq] at hsplit
    rw [hafter] at hfirst hchars
    obtain rfl : c = '\\' := by simpa using hfirst
    rw [IsPath, ← hchars, splitChars_append_sep, List.all_append, Bool.and_eq_true] at h
    rw [IsPath, ← hsplit.2, String.toList_ofList]
    exact h.2

theorem head?_ne (h : IsPath s) : s.toList.head? ≠ some '\\' := by
  intro hhead
  obtain ⟨cs, hcs⟩ := List.head?_eq_some_iff.mp hhead
  rw [IsPath, hcs, splitChars, if_pos rfl] at h
  cases h

theorem isClassName (h : IsPath s) : isClassName s.toList = true := by
  unfold Throws.isClassName
  dsimp only
  split
  · next hs => exact absurd (by rw [hs]; rfl) h.head?_ne
  · exact h

end IsPath

theorem isPath_dropLeading {s : String} (h : isClassName s.toList = true) :
    IsPath (dropLeading '\\' s) := by
  have hbody {body : String} (hbody : IsPath body) : IsPath (dropLeading '\\' body) := by
    rw [dropLeading_eq_self hbody.head?_ne]
    exact hbody
  unfold isClassName at h
  dsimp only at h
  split at h
  · next rest hs =>
    have hpath : IsPath (String.ofList rest) := by
      rw [IsPath, String.toList_ofList]
      exact h
    have hdrop : dropLeading '\\' s = dropLeading '\\' (String.ofList rest) := by
      simp [dropLeading, hs]
    rw [hdrop]
    exact hbody hpath
  · exact hbody h

namespace Token

theorem isIdentChar_ne_backslash {c : Char} (h : isIdentChar c = true) : c ≠ '\\' := by
  rintro rfl
  cases h

theorem isIdentStart_ne_backslash {c : Char} (h : isIdentStart c = true) : c ≠ '\\' :=
  isIdentChar_ne_backslash (isIdentChar_of_isIdentStart h)

/-- How a name goes on: the identifier that it is in, and more of them after backslashes. -/
def GoesOn (cs : List Char) : Prop :=
  ∃ w ws, splitChars '\\' cs = w :: ws ∧ w.all isIdentChar = true ∧ ws.all isIdentifier = true

theorem GoesOn.nil : GoesOn [] := ⟨[], [], rfl, rfl, rfl⟩

theorem GoesOn.char {c : Char} {cs : List Char} (hc : isIdentChar c = true) (h : GoesOn cs) :
    GoesOn (c :: cs) := by
  obtain ⟨w, ws, hsplit, hw, hws⟩ := h
  refine ⟨c :: w, ws, ?_, by simp [hc, hw], hws⟩
  rw [splitChars, if_neg (isIdentChar_ne_backslash hc), hsplit]

/- A word and what goes on from it. -/
theorem GoesOn.identifiers {c : Char} {cs : List Char} (hc : isIdentStart c = true)
    (h : GoesOn cs) : (splitChars '\\' (c :: cs)).all isIdentifier = true := by
  obtain ⟨w, ws, hsplit, hw, hws⟩ := h
  rw [splitChars, if_neg (isIdentStart_ne_backslash hc), hsplit]
  simp [isIdentifier, hc, hw, hws]

theorem GoesOn.backslash {c : Char} {cs : List Char} (hc : isIdentStart c = true)
    (h : GoesOn cs) : GoesOn ('\\' :: c :: cs) :=
  ⟨[], splitChars '\\' (c :: cs), by rw [splitChars, if_pos rfl], rfl, h.identifiers hc⟩

theorem goesOn_nameLength (cs : List Char) : GoesOn (cs.take (nameLength cs)) := by
  fun_induction nameLength cs with
  | case1 => exact .nil
  | case2 c h => exact .char h .nil
  | case3 => exact .nil
  | case4 c d cs h ih => exact .char h ih
  | case5 c d cs _ h ih =>
    obtain ⟨rfl, hd⟩ : c = '\\' ∧ isIdentStart d = true := by simpa using h
    exact .backslash hd ih
  | case6 => exact .nil

theorem isPath_word {c : Char} {cs : List Char} (hc : isIdentStart c = true) :
    IsPath (String.ofList (c :: cs.take (nameLength cs))) := by
  rw [IsPath, String.toList_ofList]
  exact (goesOn_nameLength cs).identifiers hc

theorem isClassName_rooted {cs : List Char} (h : cs.head?.any isIdentStart = true) :
    isClassName ('\\' :: cs.take (nameLength cs)) = true := by
  cases cs with
  | nil => cases h
  | cons c cs =>
    have hc : isIdentStart c = true := h
    rw [nameLength_cons (isIdentChar_of_isIdentStart hc), List.take_succ_cons]
    exact (goesOn_nameLength cs).identifiers hc

/-- What is read as a name or as a keyword looks like one. -/
def Scanned.Spells (c : Char) (cs : List Char) (s : Scanned) : Prop :=
  match s.reading with
  | .token .name => isClassName (c :: cs.take s.more) = true
  | .token (.keyword _) => IsPath (String.ofList (c :: cs.take s.more))
  | .echoTag => c :: cs.take s.more = ['<', '?', '=']
  | _ => True

section
variable {c : Char} {cs : List Char}

theorem Scanned.Spells.ite {b : Prop} [Decidable b] {s t : Scanned} (hs : b → s.Spells c cs)
    (ht : ¬b → t.Spells c cs) : (if b then s else t).Spells c cs := by
  by_cases h : b
  · rw [if_pos h]
    exact hs h
  · rw [if_neg h]
    exact ht h

theorem scanSymbol_spells (d : Char) : (scanSymbol d cs).Spells c cs := by
  unfold scanSymbol
  split <;> trivial

theorem scanWord_spells (hc : isIdentStart c = true) : (scanWord c cs).Spells c cs := by
  have hpath : IsPath (String.ofList (c :: cs.take (nameLength cs))) := isPath_word hc
  have hname := hpath.isClassName
  rw [String.toList_ofList] at hname
  unfold scanWord
  dsimp only
  split
  · exact hname
  · split
    · exact hpath
    · exact hname

theorem scanQuoted_spells (quote : Char) : (scanQuoted quote cs).Spells c cs := by
  unfold scanQuoted
  split <;> trivial

theorem scanBackslash_spells : (scanBackslash cs).Spells '\\' cs := by
  unfold scanBackslash
  exact .ite (fun hhead => isClassName_rooted hhead) fun _ => scanSymbol_spells _

theorem scanSlash_spells : (scanSlash cs).Spells c cs := by
  unfold scanSlash
  split
  · trivial
  · unfold scanDocComment
    split
    · trivial
    · exact .ite (fun _ => trivial) fun _ => .ite (fun _ => trivial) fun _ =>
        .ite (fun _ => trivial) fun _ => trivial
  · unfold scanBlockComment
    split
    · trivial
    · exact .ite (fun _ => trivial) fun _ => trivial
  · exact scanSymbol_spells _

theorem scanHash_spells : (scanHash cs).Spells c cs := by
  unfold scanHash
  split <;> trivial

theorem scanQuestion_spells : (scanQuestion cs).Spells c cs := by
  unfold scanQuestion
  split
  · trivial
  · exact scanSymbol_spells _

theorem scanLess_spells : (scanLess cs).Spells '<' cs := by
  unfold scanLess
  split
  · unfold scanHeredoc
    split <;> trivial
  · rfl
  · exact .ite (fun _ => trivial) fun _ => scanSymbol_spells _

theorem scan_spells (c : Char) (cs : List Char) : (scan c cs).Spells c cs := by
  unfold scan
  refine .ite (fun _ => trivial) fun _ => ?_
  refine .ite (fun hc => scanWord_spells hc) fun _ => ?_
  refine .ite (fun _ => trivial) fun _ => ?_
  refine .ite (fun _ => scanQuoted_spells c) fun _ => ?_
  refine .ite (fun _ => trivial) fun _ => ?_
  refine .ite (fun _ => .ite (fun _ => trivial) fun _ => scanSymbol_spells _) fun _ => ?_
  refine .ite (fun hc => hc ▸ scanBackslash_spells) fun _ => ?_
  refine .ite (fun _ => .ite (fun _ => trivial) fun _ => scanSymbol_spells _) fun _ => ?_
  refine .ite (fun _ => scanSlash_spells) fun _ => ?_
  refine .ite (fun _ => scanHash_spells) fun _ => ?_
  refine .ite (fun _ => scanQuestion_spells) fun _ => ?_
  exact .ite (fun hc => hc ▸ scanLess_spells) fun _ => scanSymbol_spells c

end

/-- A name is written as a class name, and a keyword as an identifier; only the tag that stands for
`echo` is not. -/
structure Worded (t : Token) : Prop where
  name : t.kind = .name → isClassName t.lexeme.toList = true
  keyword : ∀ k, t.kind = .keyword k → IsPath t.lexeme ∨ k = .kwEcho ∧ t.lexeme = "<?="

theorem worded_of_piece {c : Char} {cs skipped : List Char} {l : Location} {t : Token}
    (h : (Piece.mk (scan c cs).reading (c :: cs.take (scan c cs).more) skipped l).token = .ok t) :
    t.Worded := by
  have hspells := scan_spells c cs
  unfold Scanned.Spells at hspells
  unfold Piece.token at h
  dsimp only at h
  split at h
  · next kind hread =>
    cases h
    rw [hread] at hspells
    refine ⟨?_, ?_⟩
    · rintro rfl
      rw [String.toList_ofList]
      exact hspells
    · rintro k rfl
      exact .inl hspells
  · next hread =>
    cases h
    rw [hread] at hspells
    have htext : c :: cs.take (scan c cs).more = ['<', '?', '='] := hspells
    refine ⟨by simp, ?_⟩
    rintro k ⟨⟩
    rw [htext]
    exact .inr ⟨rfl, rfl⟩
  · cases h
    exact ⟨by simp, by simp⟩
  · cases h

theorem worded_ofCode {doc : Option String} {l : Location} {cs : List Char} {ts : List Token}
    (h : ofPieces doc (Piece.ofCode l cs) = .ok ts) : ∀ t ∈ ts, t.Worded := by
  fun_induction Piece.ofCode l cs generalizing doc ts with
  | case1 =>
    cases h
    simp
  | case2 l c cs scanned text rest =>
    rename_i n ih
    obtain ⟨t, ht, ⟨_, hts⟩ | ⟨us, hus, rfl⟩⟩ := ofPieces_cases h
    · exact ih hts
    · have hfirst : t.Worded := worded_of_piece ht
      exact List.forall_mem_cons.mpr ⟨⟨hfirst.name, hfirst.keyword⟩, ih hus⟩

theorem worded_ofSource {source : String} {ts : List Token} (h : ofSource source = .ok ts) :
    ∀ t ∈ ts, t.Worded :=
  worded_ofCode h

/- What can name a type is a name without backslashes or a keyword. -/
theorem Worded.identifier {t : Token} (h : t.Worded) (hident : Grammar.isIdentifier t = true) :
    IsPath t.lexeme ∨ t.lexeme = "<?=" := by
  rcases Bool.or_eq_true_iff.mp hident with hname | hkeyword
  · obtain ⟨hkind, hplain⟩ : t.kind = .name ∧ '\\' ∉ t.lexeme.toList := by simpa using hname
    have hpath := isPath_dropLeading (h.name hkind)
    rw [dropLeading_eq_self fun hhead => hplain (List.mem_of_mem_head? hhead)] at hpath
    exact .inl hpath
  · obtain ⟨k, hk⟩ : ∃ k, t.kind = .keyword k := by
      cases hkind : t.kind with
      | keyword k => exact ⟨k, rfl⟩
      | _ => simp [hkind, TokenKind.isKeyword] at hkeyword
    exact (h.keyword k hk).imp_right And.right

end Token

end ContractAudit
