import ContractAudit.Proofs.Memo
import Mathlib.Data.Set.Card

/-! Bodies taken up level by level from one method on. Main statements: after some levels the keys
are those that at most so many calls lead to, the settled ones left out; more levels store the same
bodies and then further ones; and what is stored is what scanning a body gives. -/
namespace ContractAudit.Throws
variable {i : Index} {c : Config} {r r' r'' : Resolver} {w w' w'' : Workspace}
  {g g' g'' : Collected} {root : Frame} {k : CallKey} {level : List Frame}

/-- A chain of calls from one key to another, counted. -/
inductive Chain (i : Index) (body : CallKey → Summary → Prop) (start : CallKey) :
    Nat → CallKey → Prop where
  | here : Chain i body start 0 start
  | call {n : Nat} {k : CallKey} {s : Summary} {site : CallSite} {f : Frame} :
      Chain i body start n k → body k s → site ∈ s.calls → callee? i site = some f →
      Chain i body start (n+1) f.key

theorem Chain.mono {body body' : CallKey → Summary → Prop} {start : CallKey} {n : Nat}
    (h : Chain i body start n k) (hbody : ∀ k s, body k s → body' k s) :
    Chain i body' start n k := by
  induction h with
  | here => exact .here
  | call _ hs hsite hf ih => exact .call ih (hbody _ _ hs) hsite hf

/-- The least number of calls that lead to a key. -/
def Distance (i : Index) (body : CallKey → Summary → Prop) (start : CallKey) (n : Nat)
    (k : CallKey) : Prop :=
  Chain i body start n k ∧ ∀ m < n, ¬ Chain i body start m k

section
variable {body : CallKey → Summary → Prop} {start : CallKey} {n : Nat}

open Classical in
theorem Chain.distance (h : Chain i body start n k) : ∃ m, Distance i body start m k := by
  have hex : ∃ n, Chain i body start n k := ⟨n, h⟩
  exact ⟨Nat.find hex, Nat.find_spec hex, fun _ hm => Nat.find_min hex hm⟩

/- The last call of a shortest chain goes out from a key at one call less. -/
theorem Distance.before (h : Distance i body start n k) {m : Nat} (hm : m ≤ n) :
    ∃ k', Distance i body start m k' := by
  induction n generalizing k with
  | zero =>
    rw [Nat.le_zero.mp hm]
    exact ⟨k, h⟩
  | succ n ih =>
    rcases Nat.lt_or_eq_of_le hm with hlt | rfl
    · obtain ⟨hc, hmin⟩ := h
      cases hc with
      | call hc hs hsite hf =>
        refine ih ⟨hc, ?_⟩ (by omega)
        intro j hj hshort
        exact hmin (j+1) (by omega) (.call hshort hs hsite hf)
    · exact ⟨k, h⟩

theorem Distance.unique {m : Nat} (h : Distance i body start n k)
    (h' : Distance i body start m k) : n = m := by
  rcases Nat.lt_trichotomy n m with hlt | rfl | hlt
  · exact absurd h.1 (h'.2 n hlt)
  · rfl
  · exact absurd h'.1 (h.2 m hlt)

/- There is a key at each distance up to the last, so a distance is below the number of keys. -/
theorem Distance.lt_encard (h : Distance i body start n k) :
    (n : ℕ∞) < { k | ∃ n, Chain i body start n k }.encard := by
  have : Nonempty CallKey := ⟨k⟩
  choose! key hkey using fun m (hm : m ≤ n) => h.before hm
  have hinj : Set.InjOn key (Finset.range (n+1)) := by
    intro a ha b hb heq
    rw [Finset.mem_coe, Finset.mem_range] at ha hb
    have hb' := hkey b (by omega)
    rw [← heq] at hb'
    exact (hkey a (by omega)).unique hb'
  have hsub : ((Finset.range (n+1)).image key : Set CallKey) ⊆
      { k | ∃ n, Chain i body start n k } := by
    intro x hx
    obtain ⟨m, hm, rfl⟩ := Finset.mem_image.mp hx
    rw [Finset.mem_range] at hm
    exact ⟨m, (hkey m (by omega)).1⟩
  have hcard := Set.encard_le_encard hsub
  rw [Set.encard_coe_eq_coe_finsetCard, Finset.card_image_of_injOn hinj,
    Finset.card_range] at hcard
  exact lt_of_lt_of_le (by exact_mod_cast Nat.lt_succ_self n) hcard

end

/-- The keys of a graph are those that at most `j` calls lead to and nothing is known of, whatever
is stored later. -/
def Reached (i : Index) (root : Frame) (r : Resolver) (g : Collected) (j : Nat) : Prop :=
  ∀ R, r.Extends R → ∀ k, k ∈ g.keys ↔
    r.known? k = none ∧ ∃ n ≤ j, Chain i R.Stores root.key n k

theorem Reached.start (h : r.known? root.key = none) :
    Reached i root r (Collected.start root) 0 := by
  intro R _ k
  constructor
  · intro hk
    rw [List.mem_singleton.mp hk]
    exact ⟨h, 0, Nat.le_refl _, .here⟩
  · rintro ⟨_, n, hn, hc⟩
    rw [Nat.le_zero.mp hn] at hc
    cases hc
    exact List.mem_singleton_self _

theorem Settled.caller_unknown (hs : Settled i r) {R : Resolver} (he : r.Extends R) {s : Summary}
    {site : CallSite} {f : Frame} (hk : R.Stores k s) (hsite : site ∈ s.calls)
    (hf : callee? i site = some f) (hnone : r.known? f.key = none) : r.known? k = none := by
  cases hknown : r.known? k with
  | none => rfl
  | some t =>
    obtain ⟨b, hb, hcalls⟩ := hs.closed hknown
    cases (he.summary hb).symm.trans hk
    have := hcalls site hsite f hf
    rw [hnone] at this
    cases this

theorem Building.callee_mem {pending : List Frame} (hb : Building i r g pending)
    (ht : g.truncated = false) {R : Resolver} (he : r.Extends R) {s : Summary}
    {site : CallSite} {f : Frame} (hk : k ∈ g.nodes.map (·.key)) (hs : R.Stores k s)
    (hsite : site ∈ s.calls) (hf : callee? i site = some f) (hnone : r.known? f.key = none) :
    f.key ∈ g.keys := by
  obtain ⟨n, hn, rfl⟩ := List.mem_map.mp hk
  obtain ⟨s', hs', _⟩ := hb.nodes n hn
  cases (he.summary hs').symm.trans hs
  refine (hb.kept ht hn hs' hsite hf).resolve_right ?_
  simp [hnone]

theorem Reached.step {j : Nat} (hr : Reached i root r g j) (hb : Building i r g level)
    (hb' : Building i r' g' g'.next)
    (hg : Grown i true level r { g with next := [] } r' g' g'.next) (hs : Settled i r') :
    Reached i root r' g' (j+1) := by
  intro R he k
  have hold := hr R (hg.stored.trans he)
  rw [← hg.stored.known] at hold
  have hkeys : g'.keys = g.keys ++ g'.next.map Frame.key := hg.keys
  -- all bodies taken up before this level are scanned after it
  have hscanned : g'.nodes.map (·.key) = g.keys :=
    List.append_cancel_right (hb'.keys.symm.trans hkeys)
  constructor
  · intro hk
    refine ⟨hb'.fresh k hk, ?_⟩
    rw [hkeys] at hk
    rcases List.mem_append.mp hk with hk | hk
    · obtain ⟨_, n, hn, hc⟩ := (hold k).mp hk
      exact ⟨n, by omega, hc⟩
    · obtain ⟨x, hx, rfl⟩ := List.mem_map.mp hk
      obtain ⟨f, hf, s, hs, site, hsite, hx⟩ := hg.called x hx
      have hfk : f.key ∈ g.keys := by
        rw [hb.keys]
        exact List.mem_append_right _ (List.mem_map_of_mem hf)
      obtain ⟨_, n, hn, hc⟩ := (hold f.key).mp hfk
      exact ⟨n+1, by omega, .call hc (he.summary hs) hsite hx⟩
  · rintro ⟨hnone, n, hn, hc⟩
    cases hc with
    | here =>
      rw [hkeys]
      exact List.mem_append_left _ ((hold root.key).mpr ⟨hnone, 0, by omega, .here⟩)
    | @call n p s site f hc hstored hsite hf =>
      have hp : p ∈ g'.nodes.map (·.key) := by
        rw [hscanned]
        exact (hold p).mpr ⟨hs.caller_unknown he hstored hsite hf hnone, n, by omega, hc⟩
      exact hb'.callee_mem (hg.deep rfl) he hp hstored hsite hf hnone

/- Where no body is pending, no further call leads out. -/
theorem Reached.closed {j : Nat} (hr : Reached i root r g j) (hb : Building i r g [])
    (ht : g.truncated = false) (hs : Settled i r) {R : Resolver} (he : r.Extends R) {n : Nat}
    (hc : Chain i R.Stores root.key n k) (hnone : r.known? k = none) : k ∈ g.keys := by
  induction hc with
  | here => exact (hr R he root.key).mpr ⟨hnone, 0, by omega, .here⟩
  | call _ hstored hsite hf ih =>
    have hk := ih (hs.caller_unknown he hstored hsite hf hnone)
    exact hb.callee_mem ht he (hb.keys_eq ▸ hk) hstored hsite hf hnone

theorem Reached.run {levels j : Nat}
    (h : Yields (collectLevels i c (levels+1) level g) r w g' r' w') (hb : Building i r g level)
    (ht : g.truncated = false) (hs : Settled i r) (hr : Reached i root r g j) :
    Reached i root r' g' (j+levels) := by
  induction levels generalizing level g r w j with
  | zero =>
    rcases collectLevels_succ h hb ht with ⟨_, rfl, rfl, _⟩ | ⟨_, g₁, r₁, w₁, _, hb₁, hg₁, hrest⟩
    · exact hr
    · obtain ⟨rfl, rfl, rfl⟩ := yields_pure.mp hrest
      intro R he k
      have hkeys := hg₁.keys
      rw [hg₁.shallow rfl, List.map_nil, List.append_nil] at hkeys
      rw [hkeys, hg₁.stored.known]
      exact hr R (hg₁.stored.trans he) k
  | succ levels ih =>
    rcases collectLevels_succ h hb ht with ⟨rfl, rfl, rfl, _⟩ | ⟨_, g₁, r₁, w₁, _, hb₁, hg₁, hrest⟩
    · intro R he k
      constructor
      · intro hk
        obtain ⟨hnone, n, hn, hc⟩ := (hr R he k).mp hk
        exact ⟨hnone, n, by omega, hc⟩
      · rintro ⟨hnone, n, _, hc⟩
        exact hr.closed hb ht hs he hc hnone
    · have hs₁ : Settled i r₁ := hs.extend hg₁.stored
      have hg₁ : Grown i true level r { g with next := [] } r₁ g₁ g₁.next := by simpa using hg₁
      have := ih hrest hb₁ (hg₁.deep rfl) hs₁ (hr.step hb hb₁ hg₁ hs₁)
      rwa [show j + 1 + levels = j + (levels + 1) by omega] at this

/-- What following a call reports. -/
def missing (i : Index) (site : CallSite) : List Event :=
  if (callee? i site).isNone then [.methodMissing site.lookupClass site.method] else []

section
variable {deeper deeper' : Bool} {g₁ g₂ : Collected} {site : CallSite} {sites : List CallSite}

theorem followSite_reports {x : Collected × Option Edge}
    (h : Yields (followSite i deeper g site) r w x r' w') :
    w' = { w with events := missing i site ++ w.events } := by
  obtain ⟨f, r₁, w₁, hf, hrest⟩ := h.bind_inv
  have hstay : w' = w₁ := by
    cases f with
    | none => exact (yields_pure.mp hrest).2.2
    | some f =>
      cases hrest
      rfl
  rw [hstay]
  unfold frame? at hf
  cases hm : i.method? site.lookupClass site.method with
  | some m =>
    rw [hm] at hf
    cases hf
    simp [missing, callee?, hm]
  | none =>
    rw [hm] at hf
    cases hf
    simp [missing, callee?, hm]

theorem followSites_reports {x : Collected × List Edge}
    (h : Yields (followSites i deeper g sites) r w x r' w') :
    w' = { w with events := sites.reverse.flatMap (missing i) ++ w.events } := by
  induction sites generalizing g r w x with
  | nil =>
    cases h
    rfl
  | cons site sites ih =>
    obtain ⟨y, r₁, w₁, hsite, hrest⟩ := h.bind_inv
    obtain ⟨z, r₂, w₂, hsites, hlast⟩ := hrest.bind_inv
    obtain ⟨_, rfl, rfl⟩ := yields_pure.mp hlast
    have hw₁ := followSite_reports hsite
    have hw₂ := ih hsites
    subst hw₁
    simpa [List.flatMap_append] using hw₂

theorem collectNode_states {f : Frame} (h : Yields (collectNode i c deeper g₁ f) r w g r' w')
    (h' : Yields (collectNode i c deeper' g₂ f) r w g' r'' w'') : r'' = r' ∧ w'' = w' := by
  obtain ⟨s, r₁, w₁, hs, hrest⟩ := h.bind_inv
  obtain ⟨s', r₂, w₂, hs', hrest'⟩ := h'.bind_inv
  obtain ⟨rfl, rfl, rfl⟩ := hs.unique hs'
  obtain ⟨z, r₃, w₃, hsites, hlast⟩ := hrest.bind_inv
  obtain ⟨z', r₄, w₄, hsites', hlast'⟩ := hrest'.bind_inv
  obtain ⟨_, rfl, rfl⟩ := yields_pure.mp hlast
  obtain ⟨_, rfl, rfl⟩ := yields_pure.mp hlast'
  obtain ⟨rfl, _⟩ := followSites_yields hsites
  obtain ⟨rfl, _⟩ := followSites_yields hsites'
  exact ⟨rfl, (followSites_reports hsites').trans (followSites_reports hsites).symm⟩

theorem collectLevel_states
    (h : Yields (level.foldlM (collectNode i c deeper) g₁) r w g r' w')
    (h' : Yields (level.foldlM (collectNode i c deeper') g₂) r w g' r'' w'') :
    r'' = r' ∧ w'' = w' := by
  induction level generalizing g₁ g₂ r w with
  | nil =>
    obtain ⟨_, rfl, rfl⟩ := yields_pure.mp h
    obtain ⟨_, rfl, rfl⟩ := yields_pure.mp h'
    exact ⟨rfl, rfl⟩
  | cons f level ih =>
    rw [List.foldlM_cons] at h h'
    obtain ⟨y, r₁, w₁, hf, hrest⟩ := h.bind_inv
    obtain ⟨y', r₂, w₂, hf', hrest'⟩ := h'.bind_inv
    obtain ⟨rfl, rfl⟩ := collectNode_states hf hf'
    exact ih hrest hrest'

/- The induction is on the levels that both have; below the last of them only one goes on. -/
theorem collectLevels_deeper {levels : Nat}
    (h : Yields (collectLevels i c (levels+1) level g) r w g₁ r' w')
    (h' : Yields (collectLevels i c (levels+2) level g) r w g₂ r'' w'')
    (hb : Building i r g level) (ht : g.truncated = false) : r'.Extends r'' := by
  induction levels generalizing level g r w with
  | zero =>
    rcases collectLevels_succ h hb ht with
      ⟨rfl, rfl, rfl, _⟩ | ⟨hne, ga, ra, wa, hlevel, _, _, hrest⟩
    · exact (collectLevels_yields h' hb (fun _ => ht) (by omega)).2.1
    · obtain ⟨rfl, rfl, rfl⟩ := yields_pure.mp hrest
      obtain ⟨gb, rb, wb, hlevel', hb', hg', hrest'⟩ :=
        ((collectLevels_succ h' hb ht).resolve_left fun hnil => hne hnil.1).2
      obtain ⟨rfl, rfl⟩ := collectLevel_states hlevel hlevel'
      exact (collectLevels_yields hrest' hb' (fun _ => hg'.deep rfl) (by omega)).2.1
  | succ levels ih =>
    rcases collectLevels_succ h hb ht with
      ⟨rfl, rfl, rfl, _⟩ | ⟨hne, ga, ra, wa, hlevel, hba, hga, hrest⟩
    · exact (collectLevels_yields h' hb (fun _ => ht) (by omega)).2.1
    · obtain ⟨gb, rb, wb, hlevel', _, _, hrest'⟩ :=
        ((collectLevels_succ h' hb ht).resolve_left fun hnil => hne hnil.1).2
      have hsame : decide (0 < levels + 1) = decide (0 < levels + 2) := by simp
      rw [hsame] at hlevel
      obtain ⟨rfl, rfl, rfl⟩ := hlevel.unique hlevel'
      exact ih hrest hrest' hba (hga.deep (by simp))

end

theorem stores_cons {key : CallKey} {s t : Summary}
    (h : Resolver.Stores { r with summaries := (key, s) :: r.summaries } k t) :
    (k = key ∧ t = s) ∨ r.Stores k t := by
  rw [Resolver.Stores, Resolver.summary?, List.lookup_cons] at h
  split at h
  · next heq => exact Or.inl ⟨beq_iff_eq.mp heq, (Option.some.inj h).symm⟩
  · exact Or.inr h

/-- Scanning a body that is `Ok` keeps `Inv`, and what a stored body calls is `Ok`. -/
structure ScanKeeps (i : Index) (c : Config) (Inv : Resolver → Workspace → Prop)
    (Ok : Resolver → Frame → Prop) : Prop where
  told : ∀ {r w} events, Inv r w → Inv r { w with events }
  extend : ∀ {r r' f}, Ok r f → r.Extends r' → Ok r' f
  called : ∀ {r w k f}, Inv r w → Calls i r k f → Ok r f
  scan : ∀ {r w f s r' w'}, Inv r w → Ok r f → Yields (summaryOf i c f) r w s r' w' → Inv r' w'

namespace ScanKeeps
variable {Inv : Resolver → Workspace → Prop} {Ok : Resolver → Frame → Prop} {deeper : Bool}
  {f : Frame}

theorem collectNode (hk : ScanKeeps i c Inv Ok) (hi : Inv r w) (hf : Ok r f)
    (h : Yields (collectNode i c deeper g f) r w g' r' w') : Inv r' w' ∧ r.Extends r' := by
  obtain ⟨s, r₁, w₁, hsum, hrest⟩ := h.bind_inv
  obtain ⟨⟨g₂, es⟩, r₂, w₂, hsites, hlast⟩ := hrest.bind_inv
  obtain ⟨_, rfl, rfl⟩ := yields_pure.mp hlast
  obtain ⟨rfl, _⟩ := followSites_yields hsites
  rw [followSites_reports hsites]
  exact ⟨hk.told _ (hk.scan hi hf hsum), (summaryOf_yields hsum).1⟩

theorem collectLevel (hk : ScanKeeps i c Inv Ok) (hi : Inv r w) (hf : ∀ f ∈ level, Ok r f)
    (h : Yields (level.foldlM (Throws.collectNode i c deeper) g) r w g' r' w') : Inv r' w' := by
  induction level generalizing g r w with
  | nil =>
    obtain ⟨_, rfl, rfl⟩ := yields_pure.mp h
    exact hi
  | cons f level ih =>
    rw [List.foldlM_cons] at h
    obtain ⟨g₁, r₁, w₁, hnode, hrest⟩ := h.bind_inv
    obtain ⟨hi₁, he⟩ := hk.collectNode hi (hf f List.mem_cons_self) hnode
    exact ih hi₁ (fun f' hf' => hk.extend (hf f' (List.mem_cons_of_mem _ hf')) he) hrest

theorem collectLevels {levels : Nat} (hk : ScanKeeps i c Inv Ok) (hi : Inv r w)
    (hf : ∀ f ∈ level, Ok r f) (hb : Building i r g level) (ht : 0 < levels → g.truncated = false)
    (h : Yields (collectLevels i c levels level g) r w g' r' w') : Inv r' w' := by
  induction levels generalizing level g r w with
  | zero =>
    obtain ⟨_, rfl, rfl⟩ := yields_pure.mp h
    exact hi
  | succ levels ih =>
    rcases collectLevels_succ h hb (ht (Nat.succ_pos _)) with
      ⟨_, _, rfl, rfl⟩ | ⟨_, g₁, r₁, w₁, hlevel, hb₁, hg₁, hrest⟩
    · exact hi
    · have hi₁ := hk.collectLevel hi hf hlevel
      refine ih hi₁ ?_ hb₁ (fun hpos => hg₁.deep (by simpa using hpos)) hrest
      intro x hx
      obtain ⟨f, _, hc⟩ := hg₁.called x hx
      exact hk.called hi₁ hc

end ScanKeeps

/-- A workspace keeps the trees of another and reads as it does. -/
structure Grows (w w' : Workspace) : Prop where
  loader : w'.loader = w.loader
  entries : w.entries <+: w'.entries

theorem Grows.refl (w : Workspace) : Grows w w := ⟨rfl, List.prefix_refl _⟩

theorem Grows.trans (h : Grows w w') (h' : Grows w' w'') : Grows w w'' :=
  ⟨h'.loader.trans h.loader, h.entries.trans h'.entries⟩

theorem parse_grows (p : Source.Path) : Grows w ((Workspace.parse p).run w).2 := by
  cases he : w.cached? (w.loader.key p) with
  | some found =>
    have hr : ((Workspace.parse p).run w).2 = w := by
      simp [Workspace.parse, he]
      rfl
    rw [hr]
    exact .refl w
  | none =>
    constructor
    · simp [Workspace.parse, he]
      rfl
    · simp [Workspace.parse, he]
      exact List.prefix_append _ _

theorem scanMethod_grows (f : Frame) : Grows w ((scanMethod i c f).run w).2 := by
  have hbody : Grows w ((body? f.method).run w).2 := by
    rw [body?_run]
    cases f.method.file with
    | none => exact .refl w
    | some file => exact parse_grows file
  rw [scanMethod_run]
  rcases hrun : (body? f.method).run w with ⟨_ | body, w'⟩
  · rwa [hrun] at hbody
  · rw [hrun] at hbody
    exact hbody.trans ⟨rfl, List.prefix_refl _⟩

/-- A body that is collected below a method: the method itself or what some body calls. -/
def Due (i : Index) (root : Frame) (r : Resolver) (f : Frame) : Prop :=
  f = root ∨ ∃ k, Calls i r k f

theorem Due.extend {f : Frame} (h : Due i root r f) (he : r.Extends r') : Due i root r' f := by
  rcases h with rfl | ⟨k, hk⟩
  · exact Or.inl rfl
  · exact Or.inr ⟨k, hk.extend he⟩

/-- What is stored under a key is what scanning such a body gives, with the trees of `w`. -/
def Scanned (i : Index) (c : Config) (root : Frame) (w : Workspace) (r : Resolver) : Prop :=
  ∀ k s, r.Stores k s → ∃ f, f.key = k ∧ Due i root r f ∧
    ∃ w', Grows w w' ∧ ((scanMethod i c f).run w').1 = s

theorem scanned_keeps {w₀ : Workspace} : ScanKeeps i c
    (fun r w => Scanned i c root w₀ r ∧ Grows w₀ w) (Due i root) where
  told _ h := ⟨h.1, h.2.loader, h.2.entries⟩
  extend h he := h.extend he
  called _ h := Or.inr ⟨_, h⟩
  scan := by
    rintro r w f s r' w' ⟨hs, hw⟩ hf h
    have he := (summaryOf_yields h).1
    rcases summaryOf_cases h with ⟨_, rfl, rfl⟩ | ⟨_, hscan, rfl⟩
    · exact ⟨hs, hw⟩
    · have hw' : Grows w w' := by
        have := scanMethod_grows (i := i) (c := c) (w := w) f
        rwa [hscan] at this
      refine ⟨?_, hw.trans hw'⟩
      intro k t hk
      rcases stores_cons hk with ⟨rfl, rfl⟩ | hk
      · exact ⟨f, rfl, hf.extend he, w, hw, by rw [hscan]⟩
      · obtain ⟨f', hkey, hdue, hscanned⟩ := hs k t hk
        exact ⟨f', hkey, hdue.extend he, hscanned⟩

end ContractAudit.Throws
