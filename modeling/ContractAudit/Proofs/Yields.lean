import ContractAudit.Grammar.Cursor

/-! What a parser gives, whatever it reads. Main statements: a property of the results of the steps
is one of the result of their sequence, and a property of each item is one of every item that a loop
has read. -/
namespace ContractAudit.Grammar
variable {α β : Type} {P : α → Prop} {Q : β → Prop}

/-- Whatever the parser reads, what it gives has the property. -/
def Yields (P : α → Prop) (p : Parser α) : Prop := ∀ c a c', p c = .ok (a, c') → P a

namespace Yields

theorem pure {a : α} (h : P a) : Yields P (Pure.pure a) := by
  intro c a' c' hrun
  cases hrun
  exact h

theorem bind {p : Parser β} {f : β → Parser α} (h : Yields Q p) (hf : ∀ b, Q b → Yields P (f b)) :
    Yields P (p >>= f) := by
  intro c a c' hrun
  change (p c >>= fun r => f r.1 r.2) = .ok (a, c') at hrun
  cases hp : p c with
  | error e =>
    rw [hp] at hrun
    cases hrun
  | ok r =>
    rw [hp] at hrun
    exact hf r.1 (h c r.1 r.2 hp) r.2 a c' hrun

/- A step whose result says nothing about what comes of it. -/
theorem skip {p : Parser β} {f : β → Parser α} (hf : ∀ b, Yields P (f b)) : Yields P (p >>= f) := by
  have hany : Yields (fun _ => True) p := fun _ _ _ _ => trivial
  exact hany.bind fun b _ => hf b

theorem map {p : Parser β} {f : β → α} (h : Yields Q p) (hf : ∀ b, Q b → P (f b)) :
    Yields P (f <$> p) := by
  rw [map_eq_pure_bind]
  exact h.bind fun b hb => pure (hf b hb)

theorem optional {p : Parser α} (h : Yields P p) : Yields (fun o => ∀ a ∈ o, P a) (some <$> p) :=
  h.map fun a ha => by simpa using ha

theorem fail (expected : String) : Yields P (Grammar.fail expected) := by
  intro c a c' hrun
  cases hrun

theorem refuse (cause : ParseError.Cause) : Yields P (Grammar.refuse cause) := by
  intro c a c' hrun
  cases hrun

/- What each step that does not decline keeps holds at the end. -/
theorem iterateFor {step : α → Parser (Option α)}
    (hstep : ∀ a, P a → Yields (fun o => ∀ b ∈ o, P b) (step a)) (ts : List Token) {a : α}
    (h : P a) : Yields P (Grammar.iterateFor step ts a) := by
  induction ts generalizing a with
  | nil =>
    rw [Grammar.iterateFor]
    refine (hstep a h).bind fun o _ => ?_
    cases o with
    | none => exact pure h
    | some b => exact refuse _
  | cons t ts ih =>
    rw [Grammar.iterateFor]
    refine (hstep a h).bind fun o ho => ?_
    cases o with
    | none => exact pure h
    | some b => exact ih (ho b rfl)

theorem iterate {step : α → Parser (Option α)} {a : α} (h : P a)
    (hstep : ∀ a, P a → Yields (fun o => ∀ b ∈ o, P b) (step a)) :
    Yields P (Grammar.iterate step a) :=
  skip fun c => iterateFor hstep c.rest h

theorem many {round : Parser (Option α)} (h : Yields (fun o => ∀ a ∈ o, P a) round) :
    Yields (fun as => ∀ a ∈ as, P a) (Grammar.many round) := by
  have hfound : Yields (fun as : List α => ∀ a ∈ as, P a)
      (Grammar.iterate (fun found => do return (← round).map (· :: found)) []) := by
    refine iterate (by simp) fun found hfound => h.bind fun o ho => pure ?_
    cases o with
    | none => simp
    | some a =>
      have ha : P a := ho a rfl
      simpa [ha] using hfound
  exact hfound.bind fun as has => pure (by simpa using has)

theorem sepBy1 {item : Parser α} (separator : TokenKind) (h : Yields P item) :
    Yields (fun as => ∀ a ∈ as, P a) (Grammar.sepBy1 separator item) := by
  refine h.bind fun first hfirst => ?_
  refine (many (P := P) (skip fun more => ?_)).bind fun others hothers => pure ?_
  · split
    · exact h.bind fun a ha => pure (by simpa using ha)
    · exact pure (by simp)
  · simpa [hfirst] using hothers

theorem commaList {item : Parser α} (close : TokenKind) (h : Yields P item) :
    Yields (fun as => ∀ a ∈ as, P a) (Grammar.commaList close item) := by
  refine (iterate (P := fun found : List α × Bool => ∀ a ∈ found.1, P a) (by simp) ?_).bind
    fun found hfound => pure (by simpa using hfound)
  intro found hfound
  refine skip fun closed => ?_
  split
  · exact pure (by simp)
  · refine h.bind fun a ha => skip fun more => pure ?_
    simpa [ha] using hfound

end Yields

end ContractAudit.Grammar
