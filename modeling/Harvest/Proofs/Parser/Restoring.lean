import Harvest.Proofs.Parser.Standing

/-!
# Closing braces

For each brace that enters a scope only the length of the path before it is recorded, and the head of
a class with a qualified name may put another path in place of the open one. Main statement: the
brace that closes a definition leaves as many segments of the path that its head has entered as were
open before the head; so it restores the open path, if no qualified class at or inside of the
definition is entered outside of that path.
-/

namespace Harvest

namespace Parser

variable {includer : Includer} {p : Parser} {n : Nat} {ts : List Token} {is : List Item}

section Anchored

variable {base : List Nat} {path : Name} {s : Name × List Nat}

/-- Since the lengths `base` were recorded and `path` was open, scopes below it may have been opened;
`n` braces are open. -/
def Anchored (base : List Nat) (path : Name) (n : Nat) (s : Name × List Nat) : Prop :=
  ∃ more, s.2 = base ++ more ∧ s.2.length ≤ n ∧ path.segments <+: s.1.segments ∧
    (∀ k ∈ more, path.length ≤ k) ∧ (more = [] → s.1 = path) ∧ ∀ k ∈ more.head?, k = path.length

theorem anchored_self (hn : s.2.length ≤ n) : Anchored s.2 s.1 n s :=
  ⟨[], by simp, hn, List.prefix_rfl, by simp, fun _ ↦ rfl, by simp⟩

/-- When all that was opened since is closed, the path is open again. -/
theorem Anchored.eq (h : Anchored base path n s) (hn : n = base.length) : s = (path, base) := by
  obtain ⟨more, hmore, hlength, -, -, hpath, -⟩ := h
  have hnil : more = [] := by
    rw [hmore, List.length_append] at hlength
    exact List.eq_nil_of_length_eq_zero (by omega)
  subst hnil
  exact Prod.ext (hpath rfl) (by simpa using hmore)

theorem Anchored.deeper (h : Anchored base path n s) : Anchored base path (n + 1) s := by
  obtain ⟨more, hmore, hlength, hrest⟩ := h
  exact ⟨more, hmore, Nat.le_succ_of_le hlength, hrest⟩

/-- A scope is entered below the path. -/
theorem Anchored.push (h : Anchored base path n s) {entered : Name}
    (hentered : path.segments <+: entered.segments) :
    Anchored base path (n + 1) (entered, s.2 ++ [s.1.length]) := by
  obtain ⟨more, hmore, hlength, hopen, hrecorded, hpath, hfirst⟩ := h
  refine ⟨more ++ [s.1.length], by simp [hmore], by simpa using hlength, hentered, ?_, by simp, ?_⟩
  · intro k hk
    rcases List.mem_append.1 hk with hk | hk
    · exact hrecorded k hk
    · rw [List.mem_singleton.1 hk]
      exact hopen.length_le
  · cases more with
    | nil => simp [hpath rfl]
    | cons k more => simpa using hfirst

/-- A brace closes something that was opened since. -/
theorem Anchored.left (h : Anchored base path (n + 1) s) (hn : base.length ≤ n) :
    Anchored base path n (left s n) := by
  obtain ⟨more, hmore, hlength, hopen, hrecorded, hpath, hfirst⟩ := h
  rcases List.eq_nil_or_concat more with rfl | ⟨init, k, rfl⟩
  · have hsame : Parser.left s n = s := by
      unfold Parser.left
      have hne : n + 1 ≠ s.2.length := by simp [hmore]; omega
      cases s.2.getLast? <;> simp [hne]
    rw [hsame]
    exact ⟨[], hmore, by simp [hmore]; omega, hopen, by simp, hpath, by simp⟩
  · rw [List.concat_eq_append] at *
    have hlast : s.2.getLast? = some k := by simp [hmore]
    by_cases hlevel : n + 1 = s.2.length
    · have hleft : Parser.left s n = (s.1.take k, base ++ init) := by
        have hdrop : s.2.dropLast = base ++ init := by
          rw [hmore, ← List.append_assoc, List.dropLast_concat]
        simp [Parser.left, hlast, hlevel, hdrop]
      have hk : path.length ≤ k := hrecorded k (by simp)
      obtain ⟨rest, hrest⟩ := hopen
      have htake : (s.1.take k).segments = path.segments ++ rest.take (k - path.length) := by
        rw [Name.take, ← hrest, List.take_append, List.take_of_length_le hk]
        rfl
      rw [hleft]
      refine ⟨init, rfl, ?_, ⟨_, htake.symm⟩, fun j hj ↦ hrecorded j (by simp [hj]), ?_, ?_⟩
      · simp [hmore] at hlevel ⊢
        omega
      · rintro rfl
        have hfull : k = path.length := hfirst k (by simp)
        have hsegments : (s.1.take k).segments = path.segments := by
          rw [htake, hfull]
          simp
        cases path
        exact congrArg Name.mk hsegments
      · cases init with
        | nil => simp
        | cons j init => simpa using hfirst
    · have hsame : Parser.left s n = s := by simp [Parser.left, hlast, hlevel]
      rw [hsame]
      exact ⟨init ++ [k], hmore, by omega, hopen, hrecorded, hpath, hfirst⟩

end Anchored

/-- Each of the definitions that the parser reads at namespace level under a qualified name is entered
below the path. -/
def KeepsTo (includer : Includer) (p : Parser) (path : Name) (Ds : List Definition) : Prop :=
  ∀ D ∈ Ds, D.head.isQualified = true → ∀ q, Reaches includer p q → q.ahead = D.tokens →
    q.atNamespaceLevel = true →
    ∀ entered, D.head.entered? q = some entered → path.segments <+: entered.segments

theorem KeepsTo.mono {q : Parser} {path : Name} {Ds Es : List Definition}
    (h : KeepsTo includer p path Ds) (hreach : Reaches includer p q) (hsub : ∀ E ∈ Es, E ∈ Ds) :
    KeepsTo includer q path Es :=
  fun E hE hqualified r hr ↦ h E (hsub E hE) hqualified r (hreach.trans hr)

/-- A head is read at the depth of the braces before it. -/
theorem depths_load_head {head : Head} (h : p.Faces is n (head.tokens ++ ts)) :
    (p.load is).depths.brace = n := by
  have hcarries := h.carries
  cases head <;> (obtain ⟨l, rest, rfl, -⟩ := hcarries; rfl)

theorem atNamespaceLevel_load {head : Head} (h : p.Faces is n (head.tokens ++ ts)) :
    (p.load is).atNamespaceLevel = true ↔ n = p.snapshot.depths.length := by
  rw [atNamespaceLevel, decide_eq_true_iff, depths_load_head h, snapshot_load]

theorem entered?_load (head : Head) (p : Parser) (is : List Item) :
    head.entered? (p.load is) = head.entered? p := by
  simp [Head.entered?, forest]

/-- The head of a definition enters a scope below the path, or none. -/
theorem anchored_opens {base : List Nat} {path : Name} {D : Definition}
    (hanchored : Anchored base path n p.standing) (h : p.Faces is n D.tokens)
    (hkeeps : KeepsTo includer (p.load is) path [D]) (hbody : D.body ≠ []) :
    Anchored base path (n + 1) (p.opens n D.head) := by
  have hopen : path.segments <+: p.snapshot.namespaces.segments := by
    obtain ⟨_, -, -, hopen, -⟩ := hanchored
    exact hopen
  rw [opens]
  split_ifs with hskip
  · exact hanchored.deeper
  · cases hentered : D.head.entered? p with
    | none => exact hanchored.deeper
    | some entered =>
      refine hanchored.push ?_
      cases hhead : D.head with
      | namespaces first more =>
        obtain rfl : _ = entered := Option.some.inj (hhead ▸ hentered)
        exact hopen.trans (List.prefix_append _ _)
      | unnamedNamespace =>
        obtain rfl : _ = entered := Option.some.inj (hhead ▸ hentered)
        exact hopen
      | unnamedClass => simp [hhead, Head.entered?, Head.enters?] at hentered
      | classes first more bases =>
        cases more with
        | nil =>
          obtain rfl : _ = entered := Option.some.inj (hhead ▸ hentered)
          exact hopen.trans (List.prefix_append _ _)
        | cons second more =>
          have hlevel : n = p.snapshot.depths.length := by
            simpa [hhead, Head.isClass] using hskip
          refine hkeeps D (by simp) (by simp [hhead, Head.isQualified]) _ (.refl _)
            (ahead_load h.carries ?_) ((atNamespaceLevel_load h).2 hlevel) entered
            ((entered?_load _ _ _).trans hentered)
          simp [Definition.tokens, hbody]

/-- Reading past the body of a definition keeps to a path. -/
def Fills (includer : Includer) (D : Definition) : Prop :=
  ∀ (r : Parser) (rest : List Item) (n : Nat), r.Faces rest (n + 1) D.body →
    ∃ (s : Parser) (rest' : List Item), Reaches includer (r.load rest) (s.load rest') ∧
      s.Faces rest' (n + 1) (.closing .brace :: D.after) ∧
      ∀ base path, Anchored base path (n + 1) r.standing →
        KeepsTo includer (r.load rest) path D.nested → Anchored base path (n + 1) s.standing

/-- A definition is read past its head, then past its closing brace, before which `s` is open. -/
theorem reaches_definition (includer : Includer) {D : Definition} (hafter : D.after ≠ []) (hfills : Fills includer D)
    (h : p.Faces is n D.tokens) :
    ∃ (r q : Parser) (rest rest' : List Item) (s : Name × List Nat),
      Reaches includer (p.load is) (r.load rest) ∧ r.Faces rest (n + 1) D.body ∧
      r.standing = p.opens n D.head ∧
      Reaches includer (r.load rest) (q.load rest') ∧ q.Faces rest' n D.after ∧
      q.standing = left s n ∧
      ∀ base path, Anchored base path (n + 1) r.standing →
        KeepsTo includer (r.load rest) path D.nested → Anchored base path (n + 1) s := by
  obtain ⟨r, rest, hreach, hr, hopens⟩ : Heads includer p is n D.head D.body :=
    heads_head D.head h (by simp [Definition.body])
  obtain ⟨s, rest', hreach', hs, hanchored⟩ := hfills r rest n hr
  obtain ⟨q, rest'', hreach'', hq, hstanding⟩ : ∃ (q : Parser) (rest'' : List Item),
      Reaches includer (s.load rest') (q.load rest'') ∧ q.Faces rest'' n D.after ∧
        q.standing = left s.standing n := reaches_closingBrace hs hafter
  exact ⟨r, q, rest, rest'', s.standing, hreach, hr, hopens, hreach'.trans hreach'', hq, hstanding,
    hanchored⟩

/-- What follows the closing brace of a definition changes nothing. -/
theorem idles_ending (head : Head) (h : p.Faces is n (head.ending ++ ts)) (hts : ts ≠ []) :
    Idles includer p is n ts := by
  unfold Head.ending at h
  split_ifs at h with hclass
  · exact idles_semicolon h hts
  · exact .refl h

/-- A layout is read to its end. What is anchored before it is so after it, if its definitions keep
to the path. -/
theorem reaches_layout (L : Layout) (h : p.Faces is n (L.tokens ++ ts)) (hts : ts ≠ []) :
    ∃ (q : Parser) (rest : List Item), Reaches includer (p.load is) (q.load rest) ∧
      q.Faces rest n ts ∧
      ∀ base path, Anchored base path n p.standing →
        KeepsTo includer (p.load is) path (L.definitions ts) → Anchored base path n q.standing := by
  induction L generalizing p is n ts with
  | done => exact ⟨p, is, .refl _, h, fun _ _ hanchored _ ↦ hanchored⟩
  | scope head inner rest ihinner ihrest =>
    let D : Definition := ⟨head, inner, head.ending ++ (rest.tokens ++ ts)⟩
    have hfills : Fills includer D := fun r rest n hr ↦ ihinner hr (by simp)
    have hD : p.Faces is n D.tokens := by
      simpa [Layout.tokens, D, Definition.tokens, Definition.body] using h
    obtain ⟨r, q, is₁, is₂, s, hhead, hr, hopens, hbody, hq, hstanding, hinner⟩ :=
      reaches_definition includer (by simp [D, hts]) hfills hD
    obtain ⟨v, is₃, hending, hv, hsame, -⟩ : Idles includer q is₂ n (rest.tokens ++ ts) :=
      idles_ending head hq (by simp [hts])
    obtain ⟨w, is₄, hreach, hw, hrest⟩ := ihrest hv hts
    have hthere := hhead.trans (hbody.trans hending)
    refine ⟨w, is₄, hthere.trans hreach, hw, fun base path hanchored hkeeps ↦ ?_⟩
    have hbase : base.length ≤ n := by
      obtain ⟨more, hmore, hlength, -⟩ := hanchored
      rw [hmore, List.length_append] at hlength
      omega
    refine hrest base path ?_ (hkeeps.mono hthere fun E hE ↦ by simp [Layout.definitions, hE])
    rw [hsame, hstanding]
    refine (hinner base path ?_ (hkeeps.mono hhead fun E hE ↦ ?_)).left hbase
    · rw [hopens]
      exact anchored_opens hanchored hD
        (hkeeps.mono (.refl _) fun E hE ↦ by simp_all [Layout.definitions, D])
        (by simp [Definition.body])
    · exact List.mem_cons_of_mem _ (List.mem_append_left _ hE)
  | usingNamespace target rest ih =>
    obtain ⟨q, is₁, hreach, hq, hstanding, -⟩ :
        Obeys includer p is _ n (rest.tokens ++ ts) :=
      obeys_using target (by simpa [Layout.tokens] using h) (by simp [hts])
    obtain ⟨r, is₂, hreach', hr, hrest⟩ := ih hq hts
    refine ⟨r, is₂, hreach.trans hreach', hr, fun base path hanchored hkeeps ↦ ?_⟩
    exact hrest base path (hstanding ▸ hanchored) (hkeeps.mono hreach fun _ hE ↦ hE)
  | namespaceAlias name target rest ih =>
    obtain ⟨q, is₁, hreach, hq, hstanding, -⟩ :
        Obeys includer p is _ n (rest.tokens ++ ts) :=
      obeys_alias name target (by simpa [Layout.tokens] using h) (by simp [hts])
    obtain ⟨r, is₂, hreach', hr, hrest⟩ := ih hq hts
    refine ⟨r, is₂, hreach.trans hreach', hr, fun base path hanchored hkeeps ↦ ?_⟩
    exact hrest base path (hstanding ▸ hanchored) (hkeeps.mono hreach fun _ hE ↦ hE)

/-- The body of every definition is read past. -/
theorem fills (D : Definition) : Fills includer D :=
  fun _ _ _ hr ↦ reaches_layout D.inner hr (by simp)

/-- Every definition of a layout is come to, and something follows it. -/
theorem reaches_of_mem_definitions (includer : Includer) (L : Layout)
    (h : p.Faces is n (L.tokens ++ ts)) (hts : ts ≠ [])
    {D : Definition} (hD : D ∈ L.definitions ts) :
    D.after ≠ [] ∧ ∃ (q : Parser) (rest : List Item) (m : Nat),
      Reaches includer (p.load is) (q.load rest) ∧ q.Faces rest m D.tokens := by
  induction L generalizing p is n ts with
  | done => simp [Layout.definitions] at hD
  | scope head inner rest ihinner ihrest =>
    let E : Definition := ⟨head, inner, head.ending ++ (rest.tokens ++ ts)⟩
    have hE : p.Faces is n E.tokens := by
      simpa [Layout.tokens, E, Definition.tokens, Definition.body] using h
    obtain ⟨r, q, is₁, is₂, s, hhead, hr, -, hbody, hq, -⟩ :=
      reaches_definition includer (by simp [E, hts]) (fills E) hE
    rcases List.mem_cons.1 hD with rfl | hD
    · exact ⟨by simp [hts], p, is, n, .refl _, hE⟩
    rcases List.mem_append.1 hD with hD | hD
    · obtain ⟨hafter, v, is₃, m, hreach, hv⟩ := ihinner hr (by simp) hD
      exact ⟨hafter, v, is₃, m, hhead.trans hreach, hv⟩
    · obtain ⟨v, is₃, hending, hv, -⟩ : Idles includer q is₂ n (rest.tokens ++ ts) :=
        idles_ending head hq (by simp [hts])
      obtain ⟨hafter, w, is₄, m, hreach, hw⟩ := ihrest hv hts hD
      exact ⟨hafter, w, is₄, m, hhead.trans (hbody.trans (hending.trans hreach)), hw⟩
  | usingNamespace target rest ih =>
    obtain ⟨q, is₁, hreach, hq, -⟩ :
        Obeys includer p is _ n (rest.tokens ++ ts) :=
      obeys_using target (by simpa [Layout.tokens] using h) (by simp [hts])
    obtain ⟨hafter, r, is₂, m, hreach', hr⟩ := ih hq hts hD
    exact ⟨hafter, r, is₂, m, hreach.trans hreach', hr⟩
  | namespaceAlias name target rest ih =>
    obtain ⟨q, is₁, hreach, hq, -⟩ :
        Obeys includer p is _ n (rest.tokens ++ ts) :=
      obeys_alias name target (by simpa [Layout.tokens] using h) (by simp [hts])
    obtain ⟨hafter, r, is₂, m, hreach', hr⟩ := ih hq hts hD
    exact ⟨hafter, r, is₂, m, hreach.trans hreach', hr⟩

/-- What the closing brace of a definition leaves open. -/
theorem reaches_closed (includer : Includer) {D : Definition} (hafter : D.after ≠ [])
    (h : p.Faces is n D.tokens) :
    ∃ (r q : Parser) (rest rest' : List Item), Reaches includer (p.load is) (r.load rest) ∧
      r.Faces rest (n + 1) D.body ∧ Reaches includer (r.load rest) (q.load rest') ∧
      q.Faces rest' n D.after ∧
      (n = p.snapshot.depths.length →
        r.snapshot.namespaces = (D.head.entered? p).getD p.snapshot.namespaces ∧
        (KeepsTo includer (r.load rest) r.snapshot.namespaces D.nested →
          q.snapshot.namespaces = r.snapshot.namespaces.take p.snapshot.namespaces.length) ∧
        (KeepsTo includer (p.load is) p.snapshot.namespaces (D :: D.nested) →
          q.standing = p.standing)) := by
  obtain ⟨r, q, rest, rest', s, hhead, hr, hopens, hbody, hq, hstanding, hinner⟩ :=
    reaches_definition includer hafter (fills D) h
  refine ⟨r, q, rest, rest', hhead, hr, hbody, hq, fun hlevel ↦ ?_⟩
  have hself : Anchored p.snapshot.depths p.snapshot.namespaces n p.standing :=
    anchored_self h.opened
  -- Where the body keeps to the path before the head, this path is open again.
  have hback : r.standing = p.standing ∨ KeepsTo includer (p.load is) p.snapshot.namespaces [D] →
      KeepsTo includer (r.load rest) p.snapshot.namespaces D.nested → q.standing = p.standing := by
    intro hentered hnested
    have hanchored : Anchored p.snapshot.depths p.snapshot.namespaces (n + 1) r.standing := by
      rcases hentered with hsame | hkeeps
      · rw [hsame]
        exact hself.deeper
      · rw [hopens]
        exact anchored_opens hself h hkeeps (by simp [Definition.body])
    rw [hstanding]
    exact ((hinner _ _ hanchored hnested).left (Nat.le_of_eq hlevel.symm)).eq hlevel
  have hpaths : r.snapshot.namespaces = r.standing.1 ∧ q.snapshot.namespaces = q.standing.1 :=
    ⟨rfl, rfl⟩
  refine ⟨?_, fun hkeeps ↦ ?_, fun hkeeps ↦ ?_⟩
  · rw [hpaths.1, hopens]
    cases hentered : D.head.entered? p with
    | none => rw [opens_of_none hentered]; rfl
    | some path => rw [opens_of_some hentered fun _ ↦ hlevel]; rfl
  · cases hentered : D.head.entered? p with
    | none =>
      rw [opens_of_none hentered] at hopens
      have hsame : r.snapshot.namespaces = p.snapshot.namespaces := congrArg Prod.fst hopens
      rw [hsame] at hkeeps ⊢
      rw [hpaths.2, hback (.inl hopens) hkeeps]
      exact (congrArg Name.mk (List.take_length (l := p.snapshot.namespaces.segments))).symm
    | some path =>
      rw [opens_of_some hentered fun _ ↦ hlevel] at hopens
      have hdepths : r.standing.2.length = n + 1 := by rw [hopens]; simp [hlevel]
      have hinside := (hinner r.standing.2 r.standing.1 (anchored_self (Nat.le_of_eq hdepths))
        hkeeps).eq hdepths.symm
      rw [hpaths.1, hpaths.2, hstanding, hinside, hopens]
      simp [left, hlevel]
  · exact hback (.inr (hkeeps.mono (.refl _) (by simp)))
      (hkeeps.mono hhead fun E hE ↦ List.mem_cons_of_mem _ hE)

/-- The parser comes to the state `q` while it reads its file. -/
def Visits (includer : Includer) (p q : Parser) : Prop := Reaches includer p.ready.advance q

/-- A file that carries tokens is read from the first of them on. -/
theorem faces_ready (hts : ts ≠ []) (hopened : p.snapshot.depths = [])
    (hcarries : Carries {} ts p.rest) :
    p.ready.Faces p.rest 0 ts ∧ p.ready.advance = p.ready.load p.rest := by
  refine ⟨⟨hcarries, rfl, ?_⟩, ?_⟩
  · rw [show p.ready.snapshot.depths = p.snapshot.depths from rfl, hopened]
    exact Nat.le_refl 0
  · obtain ⟨t, ts, rfl⟩ := List.exists_cons_of_ne_nil hts
    obtain ⟨l, rest, hrest, -⟩ := hcarries
    rw [advance, show p.ready.rest = p.rest from rfl, hrest]
    rfl

/-- A definition of a layout, read at namespace level. Its closing brace leaves as many segments of
the path that the head has entered as were open before, if the definitions inside of it keep to that
path. If they and the head keep to the path before the head, this is open again. -/
theorem closingBrace_restores (includer : Includer) (p₀ : Parser) (L : Layout)
    (hopened : p₀.snapshot.depths = []) (hcarries : Carries {} (L.tokens ++ [.eof]) p₀.rest)
    (D : Definition) (hD : D ∈ L.definitions [.eof]) :
    ∃ p r q : Parser, Visits includer p₀ p ∧ p.ahead = D.tokens ∧
      Reaches includer p r ∧ r.ahead = D.body ∧ Reaches includer r q ∧ q.ahead = D.after ∧
      (p.atNamespaceLevel = true →
        r.snapshot.namespaces = (D.head.entered? p).getD p.snapshot.namespaces ∧
        (KeepsTo includer r r.snapshot.namespaces D.nested →
          q.snapshot.namespaces = r.snapshot.namespaces.take p.snapshot.namespaces.length) ∧
        (KeepsTo includer p p.snapshot.namespaces (D :: D.nested) →
          q.snapshot.namespaces = p.snapshot.namespaces ∧
            q.snapshot.depths = p.snapshot.depths)) := by
  obtain ⟨hready, hadvance⟩ := faces_ready (by simp) hopened hcarries
  obtain ⟨hafter, p, is, n, hvisits, hp⟩ :=
    reaches_of_mem_definitions includer L hready (by simp) hD
  obtain ⟨r, q, rest, rest', hhead, hr, hbody, hq, hlaws⟩ := reaches_closed includer hafter hp
  have hne : D.body ≠ [] := by simp [Definition.body]
  rw [← hadvance] at hvisits
  refine ⟨p.load is, r.load rest, q.load rest', hvisits,
    ahead_load hp.carries (by simp [Definition.tokens, hne]), hhead, ahead_load hr.carries hne, hbody,
    ahead_load hq.carries hafter, fun hlevel ↦ ?_⟩
  obtain ⟨hentered, hleft, hrestored⟩ := hlaws ((atNamespaceLevel_load hp).1 hlevel)
  simp only [snapshot_load, entered?_load]
  exact ⟨hentered, hleft, fun hkeeps ↦ ⟨congrArg Prod.fst (hrestored hkeeps),
    congrArg Prod.snd (hrestored hkeeps)⟩⟩

theorem Reaches.length_le {p q : Parser} (h : Reaches includer p q) :
    q.rest.length ≤ p.rest.length := by
  induction h with
  | refl => exact Nat.le_refl _
  | turn _ hless _ ih => exact Nat.le_trans ih (Nat.le_of_lt hless)

/-- There is one state with a given number of tokens left. -/
theorem Reaches.eq_of_length {p q r : Parser} (hq : Reaches includer p q)
    (hr : Reaches includer p r) (h : q.rest.length = r.rest.length) : q = r := by
  induction hq with
  | refl p =>
    cases hr with
    | refl => rfl
    | turn _ hless hrest => exact absurd hrest.length_le (by omega)
  | turn _ hless hrest ih =>
    cases hr with
    | refl => exact absurd hrest.length_le (by omega)
    | turn _ _ hrest' => exact ih hrest' h

theorem Reaches.eq_of_ahead {p q r : Parser} (hq : Reaches includer p q)
    (hr : Reaches includer p r) (h : q.ahead = r.ahead) : q = r := by
  refine hq.eq_of_length hr ?_
  have hlength := congrArg List.length h
  simpa [ahead] using hlength

/-- A namespace with a class, and a second one with another class that uses the first. -/
def lodging (rest : Layout) : Layout :=
  .scope (.namespaces ⟨"A", by decide⟩ [])
    (.scope (.classes ⟨"B", by decide⟩ [] .none) .done .done)
    (.scope (.namespaces ⟨"N", by decide⟩ [])
      (.scope (.classes ⟨"K", by decide⟩ [] .none) .done
        (.usingNamespace ⟨false, ⟨"A", by decide⟩, []⟩ rest))
      .done)

/-- Includes change nothing. -/
def ignoring : Includer := fun _ p ↦ p

/-- A parser about to read a text that spells a layout. -/
def lodger (L : Layout) : Parser :=
  start {} {} ⟨"main.cpp"⟩ (String.ofList (spaced L.tokens)) false [⟨"main.cpp"⟩] 0 #[]
    { forest := ({} : Forest).plant 0 }

/-- The first namespace, and what is in the second one before the directive. -/
def lodgingOutlines : Outline false × Outline false :=
  (.namespaces ⟨"A", by decide⟩ [] (.classBody ⟨"B", by decide⟩ .done .done) .done,
    .classBody ⟨"K", by decide⟩ .done .done)

/-- What is entered before the directive. -/
def lodgingEvents : List Event :=
  lodgingOutlines.1.events [] ++ (Outline.entries [] ["N"] ++ lodgingOutlines.2.events ["N"])

/-- The scopes of the two namespaces. -/
def lodgingForest : Forest :=
  (Yield.along lodgingEvents "main.cpp" 0 ⟨({} : Forest).plant 0, [], []⟩).forest.useNamespace 0
    ⟨["", "N"]⟩ ⟨["A"]⟩

theorem tokens_lodging (rest : Layout) :
    (lodging rest).tokens ++ [Token.eof] =
      lodgingOutlines.1.tokens ++ (Token.namespaceWord :: Token.ident "N" ::
        (Outline.furtherNames [] ++ Token.opening .brace :: (lodgingOutlines.2.tokens ++
          (Token.usingWord :: Token.namespaceWord :: ([Token.ident "A"] ++ Token.semicolon ::
            (rest.tokens ++ [Token.closing .brace, .eof])))))) := by
  simp [lodging, lodgingOutlines, Layout.tokens, Head.tokens, Head.ending, Head.isClass, Bases.tokens,
    Target.tokens, Declarations.tokens, Outline.furtherNames]

theorem reads_lodging (includer : Includer) {ts : List Token} (hts : ts ≠ []) :
    Reads includer {}
      ⟨.between [] [], ⟨([] : List Nat).length, 0, 0⟩, lodgingOutlines.1.tokens ++ (.namespaceWord ::
        .ident "N" :: (Outline.furtherNames [] ++ .opening .brace ::
          (lodgingOutlines.2.tokens ++ ts)))⟩
      lodgingEvents ⟨.between ["N"] [1], ⟨[1].length, 0, 0⟩, ts⟩ := by
  have htr : ({} : Options).calls.lookup "tr" = some .tr := by decide
  exact (reads_outline htr lodgingOutlines.1 (by decide) (fun _ ↦ rfl) (by simp)).trans
    ((reads_namespaceHead ⟨"N", by decide⟩ [] "" (by simp [hts])).trans
      (reads_outline htr lodgingOutlines.2 (by decide) (by simp) hts))

theorem visits_lodging (includer : Includer) (rest : Layout)
    (hcarries : Carries {} ((lodging rest).tokens ++ [Token.eof]) (lodger (lodging rest)).rest) :
    ∃ (p : Parser) (is : List Item), Visits includer (lodger (lodging rest)) (p.load is) ∧
      p.Faces is 1 (rest.tokens ++ [Token.closing .brace, .eof]) ∧
      p.standing = (⟨["", "N"]⟩, [1]) ∧ p.scopes = (lodgingForest, 0) := by
  have hadvance := (faces_ready (by simp) rfl hcarries).2
  rw [tokens_lodging] at hcarries
  obtain ⟨q, is, hreach, hq, hfixed, hyield⟩ := reads_lodging includer (by simp)
    (lodger (lodging rest)).ready _ rfl ⟨⟨rfl, rfl, rfl, rfl⟩, hcarries⟩
  have hfaces : q.Faces is 1 (.usingWord :: .namespaceWord :: ([.ident "A"] ++ .semicolon ::
      (rest.tokens ++ [Token.closing .brace, .eof]))) :=
    ⟨hq.carries, by rw [hq.stands.statement], by rw [hq.stands.snapshot]; exact Nat.le_refl 1⟩
  obtain ⟨r, is', hreach', hr, hstanding, hscopes⟩ : Obeys includer q is _ 1 _ :=
    obeys_using ⟨false, ⟨"A", by decide⟩, []⟩ hfaces (by simp)
  have hforest : q.forest =
      (Yield.along lodgingEvents "main.cpp" 0 ⟨({} : Forest).plant 0, [], []⟩).forest :=
    congrArg Yield.forest hyield
  have htree : q.tree = 0 := (of_fixed_eq hfixed).2.2
  refine ⟨r, is', ?_, hr, ?_, ?_⟩
  · rw [Visits, hadvance]
    exact hreach.trans hreach'
  · rw [hstanding, standing, hq.stands.snapshot]
    rfl
  · rw [hscopes, hforest, htree, hq.stands.snapshot]
    rfl

theorem carries_lodging (rest : Layout)
    (hplain : ∀ t ∈ (lodging rest).tokens, t.isPlain = true)
    (hsafe : ({} : Depths).Safe (lodging rest).tokens)
    (hclosed : (lodging rest).tokens.foldl Depths.after {} = {}) :
    Carries {} ((lodging rest).tokens ++ [Token.eof]) (lodger (lodging rest)).rest :=
  (Stream.carries_ofText (by rw [String.toList_ofList]; exact spells_spaced _ _) hplain hsafe
    hclosed).1

/-- A class that the second namespace has under another name: `class M::C { class X { }; };`. -/
def settled : Definition :=
  ⟨.classes ⟨"M", by decide⟩ [⟨"C", by decide⟩] .none,
    .scope (.classes ⟨"X", by decide⟩ [] .none) .done .done, [.semicolon, .closing .brace, .eof]⟩

/-- `namespace M = K;` before that class. -/
def settledLayout : Layout :=
  .namespaceAlias ⟨"M", by decide⟩ ⟨false, ⟨"K", by decide⟩, []⟩
    (.scope settled.head settled.inner .done)

/-- The class is come to in the second namespace, and it is entered there. -/
theorem visits_settled (includer : Includer)
    (hcarries : Carries {} ((lodging settledLayout).tokens ++ [Token.eof])
      (lodger (lodging settledLayout)).rest) :
    ∃ (p : Parser) (is : List Item), Visits includer (lodger (lodging settledLayout)) (p.load is) ∧
      p.Faces is 1 settled.tokens ∧ p.standing = (⟨["", "N"]⟩, [1]) ∧
      settled.head.entered? p = some ⟨["", "N", "K", "C"]⟩ := by
  obtain ⟨p, is, hvisits, hp, hstanding, hscopes⟩ := visits_lodging includer _ hcarries
  obtain ⟨q, rest, hreach, hq, hsame, hscopes'⟩ : Obeys includer p is _ 1 settled.tokens :=
    obeys_alias ⟨"M", by decide⟩ ⟨false, ⟨"K", by decide⟩, []⟩ hp (by decide)
  refine ⟨q, rest, hvisits.trans hreach, hq, hsame.trans hstanding, ?_⟩
  have hforest : p.forest = lodgingForest := congrArg Prod.fst hscopes
  have htree : p.tree = 0 := congrArg Prod.snd hscopes
  have hpath : p.snapshot.namespaces = ⟨["", "N"]⟩ := congrArg Prod.fst hstanding
  have hpath' : q.snapshot.namespaces = p.snapshot.namespaces := congrArg Prod.fst hsame
  rw [hforest, htree, hpath] at hscopes'
  rw [Head.entered?, show q.forest = _ from congrArg Prod.fst hscopes',
    show q.tree = 0 from congrArg Prod.snd hscopes', hpath', hpath]
  decide +kernel

theorem closingBrace_restores_settled :
    ∃ p q : Parser, Visits ignoring (lodger (lodging settledLayout)) p ∧
      p.ahead = settled.tokens ∧ settled.head.entered? p = some ⟨["", "N", "K", "C"]⟩ ∧
      Reaches ignoring p q ∧ q.ahead = settled.after ∧
      p.snapshot.namespaces = ⟨["", "N"]⟩ ∧ q.snapshot.namespaces = ⟨["", "N"]⟩ := by
  have hcarries := carries_lodging settledLayout (by decide)
    (by simp [lodging, settledLayout, settled, Layout.tokens, Head.tokens, Head.ending,
      Head.isClass, Bases.tokens, Target.tokens, Outline.furtherNames, Depths.Safe, Depths.after,
      Depths.get, Depths.set]) (by decide)
  have hmem : settled ∈ (lodging settledLayout).definitions [.eof] := by
    simp [lodging, settledLayout, settled, Layout.definitions, Layout.tokens, Head.ending,
      Head.isClass]
  obtain ⟨p, r, q, hvisits, hp, hhead, -, hbody, hq, hlaws⟩ :=
    closingBrace_restores ignoring _ _ rfl hcarries settled hmem
  -- The state before the head is the one that is known.
  obtain ⟨v, is, hvisits', hv, hstanding, hentered⟩ := visits_settled ignoring hcarries
  obtain rfl : p = v.load is :=
    hvisits.eq_of_ahead hvisits' (hp.trans (ahead_load hv.carries (by decide)).symm)
  have hpath : v.snapshot.namespaces = ⟨["", "N"]⟩ := congrArg Prod.fst hstanding
  have hlevel : (v.load is).atNamespaceLevel = true :=
    (atNamespaceLevel_load hv).2 (congrArg (List.length ∘ Prod.snd) hstanding).symm
  obtain ⟨hrestored, -⟩ := (hlaws hlevel).2.2 (by
    intro D hD hqualified s hs hahead _ entered hs'
    rcases List.mem_cons.1 hD with rfl | hD
    · obtain rfl : s = v.load is := hs.eq_of_ahead (.refl _) (hahead.trans hp.symm)
      rw [entered?_load, hentered, Option.some.injEq] at hs'
      rw [snapshot_load, hpath, ← hs']
      decide
    · obtain rfl := List.mem_singleton.1 hD
      simp [Head.isQualified] at hqualified)
  refine ⟨v.load is, q, hvisits, hp, ?_, hhead.trans hbody, hq, ?_, ?_⟩
  · rw [entered?_load, hentered]
  · rw [snapshot_load, hpath]
  · rw [hrestored, snapshot_load, hpath]

/-- A class that the second namespace finds in the first: `class B::C { };`. -/
def stray : Definition :=
  ⟨.classes ⟨"B", by decide⟩ [⟨"C", by decide⟩] .none, .done,
    [.semicolon, .closing .brace, .eof]⟩

/-- A class that is found over a directive is closed into the namespace that was used. -/
theorem namespaces_stray :
    ∃ p q : Parser,
      Visits ignoring (lodger (lodging (.scope stray.head stray.inner .done))) p ∧
      p.ahead = stray.tokens ∧ Reaches ignoring p q ∧ q.ahead = stray.after ∧
      p.snapshot.namespaces = ⟨["", "N"]⟩ ∧ q.snapshot.namespaces = ⟨["", "A"]⟩ := by
  have hcarries := carries_lodging (.scope stray.head stray.inner .done) (by decide)
    (by simp [lodging, stray, Layout.tokens, Head.tokens, Head.ending, Head.isClass, Bases.tokens,
      Target.tokens, Outline.furtherNames, Depths.Safe, Depths.after, Depths.get, Depths.set])
    (by decide)
  obtain ⟨p, is, hvisits, hp, hstanding, hscopes⟩ := visits_lodging ignoring _ hcarries
  have hfaces : p.Faces is 1 stray.tokens := hp
  obtain ⟨r, q, rest, rest', hhead, -, hbody, hq, hlaws⟩ :=
    reaches_closed ignoring (by decide) hfaces
  have hpath : p.snapshot.namespaces = ⟨["", "N"]⟩ := congrArg Prod.fst hstanding
  have hentered : stray.head.entered? p = some ⟨["", "A", "B", "C"]⟩ := by
    rw [Head.entered?, show p.forest = lodgingForest from congrArg Prod.fst hscopes,
      show p.tree = 0 from congrArg Prod.snd hscopes, hpath]
    decide +kernel
  obtain ⟨hinside, hleft, -⟩ := hlaws (congrArg (List.length ∘ Prod.snd) hstanding).symm
  refine ⟨p.load is, q.load rest', hvisits, ahead_load hfaces.carries (by decide),
    hhead.trans hbody, ahead_load hq.carries (by decide), ?_, ?_⟩
  · rw [snapshot_load, hpath]
  · rw [snapshot_load, hleft (by simp [KeepsTo, Definition.nested, stray, Layout.definitions]),
      hinside, hentered, hpath]
    rfl

end Parser

end Harvest
