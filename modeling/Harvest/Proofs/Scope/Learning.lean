import Harvest.Proofs.Scope.Kinship

/-!
# What a file learns

A file that is being read comes to include other files, one after the other. Each of them adds what
it teaches to what the file is told. Trees stay kindred if both learn the same, and trees that are
kindred at the end teach the same to the files that include them.
-/

namespace Harvest

namespace Forest

variable {V L M : Lore} {f g k f' g' : Forest} {t t' u v : Nat} {topic : Topic} {a : Answer}

/-- The file `t` is told `L` besides what it was told, and its scopes are as they were. -/
structure Learns (f : Forest) (t : Nat) (L : Lore) (g : Forest) : Prop where
  current : g.Current t
  scopes : (g.tree t).scopes = (f.tree t).scopes
  told : ∀ topic a, g.Told t topic a ↔ f.Told t topic a ∨ L topic a

/-- Nothing was learned. -/
theorem Learns.refl (h : f.Current t) : f.Learns t (fun _ _ ↦ False) f :=
  ⟨h, rfl, fun _ _ ↦ (or_iff_left id).symm⟩

theorem Learns.trans (h : f.Learns t L g) (h' : g.Learns t M k) :
    f.Learns t (fun topic a ↦ L topic a ∨ M topic a) k :=
  ⟨h'.current, h'.scopes.trans h.scopes, fun topic a ↦ by rw [h'.told, h.told, or_assoc]⟩

theorem Learns.congr (h : f.Learns t L g) (hL : ∀ topic a, L topic a ↔ M topic a) :
    f.Learns t M g :=
  ⟨h.current, h.scopes, fun topic a ↦ by rw [h.told, hL]⟩

/-- Trees that learn the same stay kindred. -/
theorem Kin.learns (h : Kin V f t f' t') (hg : f.Learns t L g) (hg' : f'.Learns t' L g')
    (hL : ∀ topic a, L topic a → V topic a) : Kin V g t g' t' where
  left := hg.current
  right := hg'.current
  alike := h.alike.congr hg.scopes hg'.scopes
  told := by
    funext topic a
    rw [hg.told, hg'.told, h.told]
  known topic a htold := ((hg.told topic a).1 htold).elim (h.known topic a) (hL topic a)

namespace Current

theorem lt_of_sees (h : f.Current t) (hu : u < f.trees.size) (hsees : f.Sees u v) :
    v < f.trees.size := by
  rcases hsees.cases_tail with rfl | ⟨w, -, hv⟩
  · exact hu
  · exact h.formed.includes w v hv

/-- Other files were read meanwhile. -/
theorem learns_of_keeps (h : f.Current t) (hformed : g.WellFormed)
    (hsize : f.trees.size ≤ g.trees.size) (hids : ∀ u < g.trees.size, g.fileId u = u)
    (hapart : ∀ u, t ∉ g.included u) (htree : g.tree t = f.tree t)
    (hkeeps : ∀ u < f.trees.size, f.Keeps g u) : f.Learns t (fun _ _ ↦ False) g := by
  have hincluded : g.included t = f.included t := by rw [included, htree, included]
  have hkept : ∀ u ∈ f.included t, g.Teaches u = f.Teaches u ∧ g.Settled u := by
    intro u hu
    apply teaches_of_keeps _ h.formed (h.settled u hu)
    intro v hv
    exact hkeeps v (h.lt_of_sees (h.formed.includes t u hu) hv)
  have hroot : g.definition ⟨t, 0⟩ = f.definition ⟨t, 0⟩ := by
    rw [definition, scope, htree, definition, scope]
  refine ⟨⟨hformed, Nat.lt_of_lt_of_le h.lt hsize, hids, hapart, hroot.trans h.root, ?_⟩,
    congrArg _ htree, fun topic a ↦ ?_⟩
  · intro u hu
    rw [hincluded] at hu
    exact (hkept u hu).2
  · rw [or_false, Told, Told, hincluded]
    apply exists_congr
    intro u
    apply and_congr_right
    intro hu
    rw [(hkept u hu).1]

variable (hentries : ∀ i ∈ (f.tree t).includes, i.1 = i.2)

include hentries

theorem mem_included_addInclude_iff (h : f.Current t) (hu : u < f.trees.size) :
    v ∈ (f.addInclude t u).included t ↔ v = u ∨ v ∈ f.included t := by
  have hid : (f.tree u).fileId = u := h.ids u hu
  have hmem : ∀ i, i ∈ insertAbsent u u (f.tree t).includes ↔ i = (u, u) ∨ i ∈ (f.tree t).includes := by
    intro i
    apply mem_insertAbsent_iff
    intro j hj hkey
    rw [← hentries j hj, hkey]
  rw [included, tree_addInclude h.lt, if_pos rfl, hid, List.mem_map, included, List.mem_map]
  simp only [hmem]
  constructor
  · rintro ⟨i, rfl | hi, rfl⟩
    · exact .inl rfl
    · exact .inr ⟨i, hi, rfl⟩
  · rintro (rfl | ⟨i, hi, rfl⟩)
    · exact ⟨_, .inl rfl, rfl⟩
    · exact ⟨i, .inr hi, rfl⟩

/-- The file comes to include another one that has nothing left to settle. -/
theorem learns_addInclude (h : f.Current t) (hu : u < f.trees.size) (hne : u ≠ t)
    (hsettled : f.Settled u) : f.Learns t (f.Teaches u) (f.addInclude t u) := by
  have hincluded := fun {v} ↦ h.mem_included_addInclude_iff (v := v) hentries hu
  have hkept : ∀ v ≠ t, f.Settled v →
      (f.addInclude t u).Teaches v = f.Teaches v ∧ (f.addInclude t u).Settled v := by
    intro v hv hsettled
    apply teaches_of_keeps _ h.formed hsettled
    intro w hw
    exact keeps_addInclude h.lt u (h.ne_of_sees hv hw)
  have hsize := f.size_addInclude t u
  refine ⟨⟨h.formed.addInclude h.lt hu, hsize.symm ▸ h.lt, fun v hv ↦ ?_, fun v hv ↦ ?_, ?_,
    fun v hv ↦ ?_⟩, scopes_addInclude h.lt t, fun topic a ↦ ?_⟩
  · have hid : (f.tree v).fileId = v := h.ids v (hsize ▸ hv)
    rw [fileId, tree_addInclude h.lt]
    split_ifs with heq
    · subst heq
      exact hid
    · exact hid
  · by_cases hvt : v = t
    · rw [hvt, hincluded] at hv
      rcases hv with rfl | hv
      · exact hne rfl
      · exact h.apart t hv
    · rw [included, tree_addInclude h.lt, if_neg hvt] at hv
      exact h.apart v hv
  · rw [definition_addInclude h.lt, h.root]
  · rcases hincluded.1 hv with rfl | hv
    · exact (hkept v hne hsettled).2
    · exact (hkept v (h.ne_of_included hv) (h.settled v hv)).2
  · constructor
    · rintro ⟨v, hv, hteaches⟩
      rcases hincluded.1 hv with rfl | hv
      · exact .inr ((hkept v hne hsettled).1 ▸ hteaches)
      · exact .inl ⟨v, hv, (hkept v (h.ne_of_included hv) (h.settled v hv)).1 ▸ hteaches⟩
    · rintro (⟨v, hv, hteaches⟩ | hteaches)
      · exact ⟨v, hincluded.2 (.inr hv),
          (hkept v (h.ne_of_included hv) (h.settled v hv)).1.symm ▸ hteaches⟩
      · exact ⟨u, hincluded.2 (.inl rfl), (hkept u hne hsettled).1.symm ▸ hteaches⟩

/-- The file comes to include several others. -/
theorem learns_addIncludes (h : f.Current t) {us : List Nat}
    (hus : ∀ u ∈ us, u < f.trees.size ∧ u ≠ t ∧ f.Settled u) :
    f.Learns t (fun topic a ↦ ∃ u ∈ us, f.Teaches u topic a)
      (us.foldl (fun f u ↦ f.addInclude t u) f) := by
  induction us generalizing f with
  | nil => exact (Learns.refl h).congr fun _ _ ↦ by simp
  | cons u us ih =>
    obtain ⟨hu, hne, hsettled⟩ := hus u List.mem_cons_self
    have hlearns := h.learns_addInclude hentries hu hne hsettled
    have hentries' : ∀ i ∈ ((f.addInclude t u).tree t).includes, i.1 = i.2 := by
      intro i hi
      rw [tree_addInclude h.lt, if_pos rfl] at hi
      rcases mem_insertAbsent hi with rfl | hi
      · exact h.ids u hu
      · exact hentries i hi
    have hkept : ∀ v ∈ us, (f.addInclude t u).Teaches v = f.Teaches v ∧
        (f.addInclude t u).Settled v := by
      intro v hv
      obtain ⟨-, hvt, hv⟩ := hus v (List.mem_cons_of_mem u hv)
      apply teaches_of_keeps _ h.formed hv
      intro w hw
      exact keeps_addInclude h.lt u (h.ne_of_sees hvt hw)
    have hrest := ih hentries' hlearns.current fun v hv ↦
      ⟨f.size_addInclude t u ▸ (hus v (List.mem_cons_of_mem u hv)).1,
        (hus v (List.mem_cons_of_mem u hv)).2.1, (hkept v hv).2⟩
    refine (hlearns.trans hrest).congr fun topic a ↦ ?_
    have hteaches : (∃ v ∈ us, (f.addInclude t u).Teaches v topic a) ↔
        ∃ v ∈ us, f.Teaches v topic a := by
      apply exists_congr
      intro v
      apply and_congr_right
      intro hv
      rw [(hkept v hv).1]
    rw [hteaches]
    simp

end Current

theorem current_plant (h : f.WellFormed) (hids : ∀ u < f.trees.size, f.fileId u = u) :
    (f.plant f.trees.size).Current f.trees.size := by
  have hsize : (f.plant f.trees.size).trees.size = f.trees.size + 1 := Array.size_push _
  have hincluded : (f.plant f.trees.size).included f.trees.size = [] := by
    rw [included, tree_plant]
    rfl
  refine ⟨h.plant _, hsize ▸ Nat.lt_succ_self _, fun u hu ↦ ?_, fun u hu ↦ ?_, ?_, fun u hu ↦ ?_⟩
  · rw [hsize] at hu
    by_cases hut : u = f.trees.size
    · rw [fileId, hut, tree_plant]
    · rw [fileId, tree_plant_of_ne _ _ hut]
      exact hids u (Nat.lt_of_le_of_ne (Nat.le_of_lt_succ hu) hut)
  · rw [included_plant] at hu
    exact Nat.lt_irrefl _ (h.includes u _ hu)
  · rw [definition, scope, tree_plant]
    rfl
  · rw [hincluded] at hu
    cases hu

/-- Trees of files that are about to be read. -/
theorem kin_plant (h : f.WellFormed) (hids : ∀ u < f.trees.size, f.fileId u = u)
    (h' : f'.WellFormed) (hids' : ∀ u < f'.trees.size, f'.fileId u = u) :
    Kin V (f.plant f.trees.size) f.trees.size (f'.plant f'.trees.size) f'.trees.size := by
  have hscope : ∀ (k : Forest) s, (k.plant k.trees.size).scope ⟨k.trees.size, s⟩ =
      { definition := ⟨k.trees.size, s⟩ } := by
    intro k s
    rw [scope, tree_plant]
    cases s <;> rfl
  have htold : ∀ (k : Forest) topic a, ¬(k.plant k.trees.size).Told k.trees.size topic a := by
    rintro k topic a ⟨u, hu, -⟩
    rw [included, tree_plant] at hu
    cases hu
  refine ⟨current_plant h hids, current_plant h' hids', ⟨?_, fun s ↦ ?_, fun s ↦ ?_⟩, ?_, ?_⟩
  · rw [tree_plant, tree_plant]
    rfl
  · rw [definition, hscope, hscope]
  · rw [definition, definition, hscope, hscope]
    exact iff_of_true rfl rfl
  · funext topic a
    exact propext (iff_of_false (htold f' topic a) (htold f topic a))
  · exact fun topic a hf ↦ (htold f topic a hf).elim

namespace Kin

/-- Kindred trees say the same. -/
theorem answer?_eq (hV : V.Agrees) (h : Kin V f t f' t') (topic : Topic) :
    f'.answer? t' topic = f.answer? t topic := by
  unfold answer?
  rw [h.alike.walk]
  cases hr : f.walk t topic.path with
  | none => rfl
  | some r =>
    obtain ⟨tree, s⟩ := r
    obtain rfl : tree = t := tree_of_walk hr
    have hscope := h.alike.scope s
    rw [Option.map_some, Option.bind_some, Option.bind_some]
    cases topic with
    | scope path =>
      have hdescribe : f'.describe path ⟨t', s⟩ = f.describe path ⟨tree, s⟩ :=
        (h.describe_walk hV hr).1
      rw [answerAt?, answerAt?, hdescribe]
    | member path segment =>
      unfold answerAt? meaning? targetAt? aliasAt?
      dsimp only
      rw [hscope]
      rfl
    | usings path =>
      unfold answerAt?
      rw [hscope]

theorem teaches_eq (hV : V.Agrees) (h : Kin V f t f' t') : f'.Teaches t' = f.Teaches t := by
  funext topic a
  apply propext
  rw [teaches_iff, teaches_iff, h.answer?_eq hV, h.told]

theorem settled (h : Kin V f t f' t') (hsettled : f.Settled t) : f'.Settled t' := by
  intro r hr
  rcases hr.cases_head with htree | ⟨u, hu, hsees⟩
  · obtain ⟨tree, s⟩ := r
    obtain rfl : t' = tree := htree
    rw [h.alike.scope]
    exact hsettled ⟨t, s⟩ .refl
  · exact h.right.settled u hu r hsees

end Kin

end Forest

end Harvest
