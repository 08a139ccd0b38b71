import Harvest.Proofs.Scope.Neighbours
import Harvest.Proofs.Scope.Reachability

/-!
# What files tell each other

A file learns from the files that it includes what scopes there are and what they are like, what a
segment means in a scope, and which namespaces a scope uses. This module says it as a relation
between topics and answers, in which neither the numbers of trees nor their order occur. If the
answers of the included files agree, the look-ups in them depend on nothing else.
-/

namespace Harvest

/-- What a file may want to know from the files that it includes. -/
inductive Topic
  /-- The scope at a path. -/
  | scope (path : List String)
  /-- A segment in the scope at a path. -/
  | member (path : List String) (segment : String)
  /-- The `using` directives in the scope at a path. -/
  | usings (path : List String)
deriving DecidableEq, Repr

inductive Answer
  /-- Whether the scope supports localization, the context of its calls, and its base classes, each
  of them once. -/
  | scope (supports : Bool) (context : String) (bases : List Name)
  /-- What an alias stands for; nothing for a child. -/
  | member (target : Option Name)
  | usings (names : List Name)
deriving DecidableEq, Repr

/-- The path of the scope that a topic is about. -/
def Topic.path : Topic → List String
  | scope path => path
  | member path _ => path
  | usings path => path

/-- Answers to topics. -/
abbrev Lore := Topic → Answer → Prop

/-- No topic has two answers. -/
def Lore.Agrees (V : Lore) : Prop := ∀ topic a b, V topic a → V topic b → a = b

namespace Forest

variable {f g : Forest} {t u v : Nat} {r : ScopeRef} {path : List String} {segment : String}
  {topic : Topic} {a b : Answer}

/-- What a scope at a path is like. -/
def describe (f : Forest) (path : List String) (r : ScopeRef) : Answer :=
  .scope (f.supports r) ((f.scope (f.definition r)).contextAt path) (f.basesOf r).eraseDups

/-- What a segment means in one scope, where every alias is settled. -/
def meaning? (f : Forest) (r : ScopeRef) (segment : String) : Option (Option Name) :=
  if ((f.scope r).child? segment).isSome then some none
  else (f.targetAt? ⟨r, segment⟩).map some

theorem offer?_eq (f : Forest) (r : ScopeRef) (n : Name) (segment : String) :
    f.offer? r n segment = (f.meaning? r segment).map fun target ↦ target.getD (n.push segment) := by
  unfold offer? meaning?
  split_ifs
  · rfl
  · rw [Option.map_map]
    cases f.targetAt? ⟨r, segment⟩ <;> rfl

/-- What one scope says. -/
def answerAt? (f : Forest) (r : ScopeRef) : Topic → Option Answer
  | .scope path => if path = [] then none else some (f.describe path r)
  | .member _ segment => (f.meaning? r segment).map .member
  | .usings _ => if (f.scope r).usings = [] then none else some (.usings (f.scope r).usings)

/-- What the tree of a file says by itself. -/
def answer? (f : Forest) (u : Nat) (topic : Topic) : Option Answer :=
  (f.walk u topic.path).bind fun r ↦ f.answerAt? r topic

/-- What a file says together with those that it includes, directly or not. -/
def Teaches (f : Forest) (t : Nat) : Lore :=
  fun topic a ↦ ∃ u, f.Sees t u ∧ f.answer? u topic = some a

/-- What a file is told by those that it includes. -/
def Told (f : Forest) (t : Nat) : Lore :=
  fun topic a ↦ ∃ u ∈ f.included t, f.Teaches u topic a

theorem told_iff (hids : f.OwnIds t) :
    f.Told t topic a ↔ ∃ u ∈ (f.order t).tail, f.answer? u topic = some a := by
  simp only [Told, Teaches, mem_tail_order_iff hids]
  constructor
  · rintro ⟨v, hv, u, hu, hgives⟩
    exact ⟨u, ⟨v, hv, hu⟩, hgives⟩
  · rintro ⟨u, ⟨v, hv, hu⟩, hgives⟩
    exact ⟨v, hv, u, hu, hgives⟩

theorem teaches_iff : f.Teaches t topic a ↔ f.answer? t topic = some a ∨ f.Told t topic a := by
  constructor
  · rintro ⟨u, hu, hgives⟩
    rcases hu.cases_head with rfl | ⟨v, hv, hrest⟩
    · exact .inl hgives
    · exact .inr ⟨v, hv, u, hrest, hgives⟩
  · rintro (hgives | ⟨v, hv, u, hu, hgives⟩)
    · exact ⟨t, .refl, hgives⟩
    · exact ⟨u, .head hv hu, hgives⟩

theorem Settled.of_sees (h : f.Settled t) (hsees : f.Sees t u) : f.Settled u :=
  fun r hr ↦ h r (hsees.trans hr)

section Keeps

variable (hkeeps : ∀ v, f.Sees t v → f.Keeps g v)

include hkeeps

theorem sees_iff_of_keeps : g.Sees t u ↔ f.Sees t u := by
  constructor
  · intro hsees
    induction hsees with
    | refl => exact .refl
    | tail _ hlast ih => exact ih.tail ((hkeeps _ ih).included ▸ hlast)
  · intro hsees
    induction hsees with
    | refl => exact .refl
    | tail hbefore hlast ih =>
      apply ih.tail
      rwa [(hkeeps _ hbefore).included]

theorem definition_of_keeps (hr : f.Sees t r.tree) : g.definition r = f.definition r := by
  rw [definition, ((hkeeps _ hr).ages r rfl).eq, definition]

theorem describe_of_keeps (h : f.WellFormed) (hu : f.Sees t u) (hr : f.walk u path = some r) :
    g.describe path r = f.describe path r := by
  obtain ⟨hsees, hwalk, -⟩ := h.definition u path r hr
  have htree : f.Sees t r.tree := (tree_of_walk hr).symm ▸ hu
  have hdefinition := definition_of_keeps hkeeps htree
  have hscope := ((hkeeps _ htree).ages r rfl).eq
  have hdefined := ((hkeeps _ (hu.trans hsees)).ages (f.definition r) rfl).eq
  have hcontext := (hkeeps _ (hu.trans hsees)).context path (f.definition r) hwalk
  unfold describe supports basesOf
  rw [hdefinition, hcontext, hscope, hdefined]

theorem meaning?_of_keeps (hsettled : f.Settled t) (hr : f.Sees t r.tree) (segment : String) :
    g.meaning? r segment = f.meaning? r segment := by
  have hages := (hkeeps _ hr).ages r rfl
  have haliases := hages.aliases (hsettled r hr)
  unfold meaning? targetAt? aliasAt? Scope.alias? Scope.child?
  rw [haliases, hages.eq]

theorem answer?_of_keeps (h : f.WellFormed) (hsettled : f.Settled t) (hu : f.Sees t u)
    (topic : Topic) : g.answer? u topic = f.answer? u topic := by
  unfold answer?
  rw [(hkeeps u hu).walk]
  cases hr : f.walk u topic.path with
  | none => rfl
  | some r =>
    have hsees : f.Sees t r.tree := (tree_of_walk hr).symm ▸ hu
    rw [Option.bind_some, Option.bind_some]
    cases topic with
    | scope path =>
      have hdescribe : g.describe path r = f.describe path r := describe_of_keeps hkeeps h hu hr
      rw [answerAt?, answerAt?, hdescribe]
    | member path segment => rw [answerAt?, answerAt?, meaning?_of_keeps hkeeps hsettled hsees]
    | usings path => rw [answerAt?, answerAt?, ((hkeeps _ hsees).ages r rfl).eq]

/-- Where every alias is settled, what is kept of the files that a file sees keeps what it
teaches. -/
theorem teaches_of_keeps (h : f.WellFormed) (hsettled : f.Settled t) :
    g.Teaches t = f.Teaches t ∧ g.Settled t := by
  constructor
  · funext topic a
    simp only [Teaches, sees_iff_of_keeps hkeeps]
    apply propext
    apply exists_congr
    intro u
    apply and_congr_right
    intro hu
    rw [answer?_of_keeps hkeeps h hsettled hu]
  · intro r hr
    rw [sees_iff_of_keeps hkeeps] at hr
    exact ((hkeeps _ hr).ages r rfl).settled (hsettled r hr)

end Keeps

/-- Nothing but the includes of the file `t` changes. -/
theorem keeps_addInclude (ht : t < f.trees.size) (u : Nat) (hv : v ≠ t) :
    f.Keeps (f.addInclude t u) v := by
  apply keeps_of_tree_eq
  rw [tree_addInclude ht, if_neg hv]

/-- A file that declares nothing and includes one file tells what that file tells. -/
theorem teaches_of_isForwarding (h : f.isForwarding t = true) (hincluded : f.included t = [u]) :
    f.Teaches t = f.Teaches u := by
  simp only [isForwarding, Bool.and_eq_true, List.isEmpty_iff] at h
  obtain ⟨⟨⟨-, hchildren⟩, haliases⟩, husings⟩ := h
  have hwalk : ∀ {path}, path ≠ [] → f.walk t path = none := by
    intro path hpath
    cases path with
    | nil => exact (hpath rfl).elim
    | cons segment path => simp [walk, descend, Scope.child?, hchildren]
  have hsilent : ∀ topic, f.answer? t topic = none := by
    intro topic
    by_cases hpath : topic.path = []
    · rw [answer?, hpath, walk_nil, Option.bind_some]
      cases topic with
      | scope path => exact if_pos hpath
      | member path segment =>
        simp [answerAt?, meaning?, targetAt?, aliasAt?, Scope.child?, Scope.alias?, hchildren,
          haliases]
      | usings path => exact if_pos husings
    · rw [answer?, hwalk hpath, Option.bind_none]
  funext topic a
  apply propext
  rw [teaches_iff, hsilent, Told, hincluded]
  simp

theorem findSome?_scopesAt (f : Forest) (us : List Nat) (topic : Topic) :
    (f.scopesAt us topic.path).findSome? (fun r ↦ f.answerAt? r topic) =
      us.findSome? fun u ↦ f.answer? u topic := by
  induction us with
  | nil => rfl
  | cons u us ih =>
    rw [scopesAt, List.filterMap_cons, List.findSome?_cons, answer?, ← ih]
    cases f.walk u topic.path with
    | none => rfl
    | some r =>
      rw [List.findSome?_cons]
      rfl

/-- Lists of which all but the empty ones are the same, one after the other. -/
theorem eraseDups_flatMap {α β : Type} [DecidableEq β] {names : α → List β} {ns : List β}
    {as : List α} (h : ∀ a ∈ as, names a = [] ∨ names a = ns) (hsome : ∃ a ∈ as, names a ≠ []) :
    (as.flatMap names).eraseDups = ns.eraseDups := by
  induction as with
  | nil => simp at hsome
  | cons a as ih =>
    have hrest : ∀ b ∈ as, names b = [] ∨ names b = ns := fun b hb ↦ h b (List.mem_cons_of_mem a hb)
    rw [List.flatMap_cons]
    rcases h a List.mem_cons_self with hnone | hns
    · rw [hnone, List.nil_append]
      apply ih hrest
      obtain ⟨b, hb, hne⟩ := hsome
      rcases List.mem_cons.1 hb with rfl | hb
      · exact (hne hnone).elim
      · exact ⟨b, hb, hne⟩
    · have hgone : (as.flatMap names).removeAll ns = [] := by
        apply List.filter_eq_nil_iff.2
        intro n hn
        obtain ⟨b, hb, hn⟩ := List.mem_flatMap.1 hn
        rcases hrest b hb with hb | hb
        · rw [hb] at hn
          cases hn
        · rw [hb] at hn
          simpa using hn
      rw [hns, List.eraseDups_append, hgone, List.eraseDups_nil, List.append_nil]

/-- Which namespaces the scopes at a path use, by the first answer. -/
theorem usings_eq {us : List Nat} {V : Lore} (hagrees : V.Agrees)
    (hknown : ∀ u ∈ us, ∀ topic a, f.answer? u topic = some a → V topic a) (path : List String) :
    ((f.scopesAt us path).flatMap fun r ↦ (f.scope r).usings).eraseDups =
      match us.findSome? fun u ↦ f.answer? u (.usings path) with
      | some (.usings ns) => ns.eraseDups
      | _ => [] := by
  rw [← findSome?_scopesAt, Topic.path]
  have hgives : ∀ r ∈ f.scopesAt us path, ∀ a, f.answerAt? r (.usings path) = some a →
      V (.usings path) a := by
    intro r hr a ha
    obtain ⟨u, hu, hwalk⟩ := List.mem_filterMap.1 hr
    apply hknown u hu
    rw [answer?, Topic.path, hwalk, Option.bind_some, ha]
  have hanswer : ∀ r, (f.scope r).usings ≠ [] →
      f.answerAt? r (.usings path) = some (.usings (f.scope r).usings) := fun r hr ↦ if_neg hr
  generalize f.scopesAt us path = rs at hgives
  cases hfound : rs.findSome? fun r ↦ f.answerAt? r (.usings path) with
  | none =>
    have hnone : ∀ r ∈ rs, (f.scope r).usings = [] := by
      intro r hr
      by_contra hsome
      have hsilent := List.findSome?_eq_none_iff.1 hfound r hr
      rw [hanswer r hsome] at hsilent
      cases hsilent
    rw [List.flatMap_eq_nil_iff.2 hnone]
    rfl
  | some a =>
    obtain ⟨r, hr, ha⟩ := List.exists_of_findSome?_eq_some hfound
    have hsome : (f.scope r).usings ≠ [] := by
      intro hnone
      rw [answerAt?, if_pos hnone] at ha
      cases ha
    have heq := (hanswer r hsome).symm.trans ha
    cases heq
    refine eraseDups_flatMap (fun x hx ↦ ?_) ⟨r, hr, hsome⟩
    by_cases hx' : (f.scope x).usings = []
    · exact .inl hx'
    · have hsame := hagrees _ _ _ (hgives x hx _ (hanswer x hx')) (hgives r hr _ (hanswer r hsome))
      exact .inr (Answer.usings.inj hsame)

section LookUp

variable {f' : Forest} {us us' : List Nat} {V : Lore}
  (hagrees : V.Agrees) (hknown : ∀ u ∈ us, ∀ topic a, f.answer? u topic = some a → V topic a)
  (hsame : ∀ topic a, (∃ u ∈ us, f.answer? u topic = some a) ↔ ∃ u ∈ us', f'.answer? u topic = some a)

include hagrees hknown hsame

/-- The first answer is the only one, and so it is the first one in other trees with the same
answers. -/
theorem findSome?_answer? (topic : Topic) :
    us'.findSome? (fun u ↦ f'.answer? u topic) = us.findSome? fun u ↦ f.answer? u topic := by
  cases hfound : us.findSome? fun u ↦ f.answer? u topic with
  | none =>
    rw [List.findSome?_eq_none_iff] at hfound ⊢
    intro u' hu'
    by_contra hsome
    obtain ⟨a, ha⟩ := Option.ne_none_iff_exists'.1 hsome
    obtain ⟨u, hu, ha⟩ := (hsame topic a).2 ⟨u', hu', ha⟩
    rw [hfound u hu] at ha
    cases ha
  | some a =>
    obtain ⟨u, hu, ha⟩ := List.exists_of_findSome?_eq_some hfound
    cases hfound' : us'.findSome? fun u ↦ f'.answer? u topic with
    | none =>
      obtain ⟨u', hu', ha'⟩ := (hsame topic a).1 ⟨u, hu, ha⟩
      rw [List.findSome?_eq_none_iff.1 hfound' u' hu'] at ha'
      cases ha'
    | some b =>
      obtain ⟨u', hu', hb⟩ := List.exists_of_findSome?_eq_some hfound'
      obtain ⟨v, hv, hb⟩ := (hsame topic b).2 ⟨u', hu', hb⟩
      rw [hagrees topic a b (hknown u hu topic a ha) (hknown v hv topic b hb)]

/-- What is found first at a path. -/
theorem findSome?_walk_of_answers (hpath : path ≠ []) :
    (us'.findSome? fun u ↦ f'.walk u path).map (f'.describe path) =
      (us.findSome? fun u ↦ f.walk u path).map (f.describe path) := by
  have hfirst := findSome?_answer? hagrees hknown hsame (.scope path)
  have heq : ∀ (k : Forest) u, k.answer? u (.scope path) = (k.walk u path).map (k.describe path) := by
    intro k u
    simp only [answer?, answerAt?, Topic.path, hpath, if_false]
    cases k.walk u path <;> rfl
  simp only [heq] at hfirst
  rwa [List.map_findSome?, List.map_findSome?]

/-- What a segment means in the scopes at a path. -/
theorem findSome?_meaning?_of_answers (path : List String) (segment : String) :
    (f'.scopesAt us' path).findSome? (fun r ↦ f'.meaning? r segment) =
      (f.scopesAt us path).findSome? fun r ↦ f.meaning? r segment := by
  have hfirst := findSome?_answer? hagrees hknown hsame (.member path segment)
  rw [← findSome?_scopesAt, ← findSome?_scopesAt] at hfirst
  have hinjective : Function.Injective Answer.member := fun _ _ heq ↦ Answer.member.inj heq
  apply Option.map_injective hinjective
  rw [List.map_findSome?, List.map_findSome?]
  exact hfirst

/-- Which namespaces the scopes at a path use. -/
theorem usings_of_answers (path : List String) :
    ((f'.scopesAt us' path).flatMap fun r ↦ (f'.scope r).usings).eraseDups =
      ((f.scopesAt us path).flatMap fun r ↦ (f.scope r).usings).eraseDups := by
  have hfirst := findSome?_answer? hagrees hknown hsame (.usings path)
  have hknown' : ∀ u ∈ us', ∀ topic a, f'.answer? u topic = some a → V topic a := by
    intro u' hu' topic a ha
    obtain ⟨u, hu, ha⟩ := (hsame topic a).2 ⟨u', hu', ha⟩
    exact hknown u hu topic a ha
  rw [usings_eq hagrees hknown, usings_eq hagrees hknown', hfirst]

end LookUp

end Forest

end Harvest
