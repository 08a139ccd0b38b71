import Harvest.Extract
import Harvest.Proofs.Parser.Moves
import Harvest.Proofs.Readable
import Mathlib.Logic.Relation

/-!
# The stages of an extraction

An extraction as a machine without bounds. At each stage a file is being read and the files that
include it wait for it, or nothing is read and the next input comes. A step takes the next input,
ends a file, or makes one turn of the main loop. Main statement: the machine halts, in the session
that extraction yields, so that the bounds on loops and on the nesting of includes never count.
-/

namespace Harvest

namespace Parser

/-- Before the first turn. -/
def begin (p : Parser) : Parser := p.ready.advance

/-- After the last turn. -/
def finish (p : Parser) : Parser := p.trailing.foldl note p

theorem run_eq (includer : Includer) (p : Parser) :
    p.run includer = (loop includer p.begin.budget p.begin).finish := rfl

/-- What is stored of an input when its last token is read. -/
def close (p : Parser) : Session := store p.session p.file (p.outcome p.tree) p.file.isHeader

/-- The includer goes on when the file that it includes is read. -/
def rejoin (includer p : Parser) : Parser :=
  let includer : Parser :=
    if p.inPlace then
      { includer with
        session := { p.session with cache := p.session.cache.addBlacklisted p.file }
        messages := p.messages }
    else
      let session := store p.session p.file (p.outcome p.tree) true
      let tree := representative session.forest (p.outcome p.tree)
      { includer with
        session := { session with forest := session.forest.addInclude includer.tree tree } }
  includer.clearProspective.clearPending.advance

end Parser

/-- A stage of an extraction, with the inputs that are left. -/
inductive Stage
  /-- Nothing is being read. -/
  | between (session : Session) (left : List (Path × String))
  /-- A file is being read; the files that include it wait, the innermost first. -/
  | reading (p : Parser) (waiting : List Parser) (left : List (Path × String))

namespace Stage

/-- Reads the file at `path` where it is included, or goes on without it. -/
def follow (p : Parser) (path : Path) (waiting : List Parser) (left : List (Path × String)) :
    Stage :=
  match p.way path with
  | .alone source =>
    .reading (Parser.aloneAt p.options p.files path source (p.stack ++ [path]) p.session).begin
      (p :: waiting) left
  | .inPlace source => .reading (p.inPlaceAt path source).begin (p :: waiting) left
  | way => .reading (way.take id path p).advance waiting left

/-- The next stage, if the extraction is not over. -/
def step (e : Extractor) : Stage → Option Stage
  | .between _ [] => none
  | .between session ((path, source) :: left) =>
    if Extractor.isParsed session.cache path then some (.between session left)
    else some (.reading (Parser.aloneAt e.options e.files path source [path] session).begin [] left)
  | .reading p waiting left =>
    if p.token = .eof then
      match waiting with
      | [] => some (.between p.finish.close left)
      | includer :: waiting => some (.reading (includer.rejoin p.finish) waiting left)
    else
      match p.include? with
      | none => some (.reading (p.turn fun _ p ↦ p) waiting left)
      | some found => some (follow p found.clean waiting left)

/-- The second stage comes after the first. -/
def Reaches (e : Extractor) : Stage → Stage → Prop :=
  Relation.ReflTransGen fun s s' ↦ s.step e = some s'

/-- What a step can do. -/
inductive Step (e : Extractor) : Stage → Stage → Prop
  | pass {session path source left} (hparsed : Extractor.isParsed session.cache path = true) :
      Step e (.between session ((path, source) :: left)) (.between session left)
  | input {session path source left} (hnew : Extractor.isParsed session.cache path = false) :
      Step e (.between session ((path, source) :: left))
        (.reading (Parser.aloneAt e.options e.files path source [path] session).begin [] left)
  | close {p left} (htoken : p.token = .eof) :
      Step e (.reading p [] left) (.between p.finish.close left)
  | rejoin {p includer waiting left} (htoken : p.token = .eof) :
      Step e (.reading p (includer :: waiting) left)
        (.reading (includer.rejoin p.finish) waiting left)
  | turn {p waiting left} (htoken : p.token ≠ .eof) (hinclude : p.include? = none) :
      Step e (.reading p waiting left) (.reading (p.turn fun _ p ↦ p) waiting left)
  | alone {p waiting left source} {found : Path} (htoken : p.token ≠ .eof)
      (hinclude : p.include? = some found) (hway : p.way found.clean = .alone source) :
      Step e (.reading p waiting left)
        (.reading (Parser.aloneAt p.options p.files found.clean source (p.stack ++ [found.clean])
          p.session).begin (p :: waiting) left)
  | inPlace {p waiting left source} {found : Path} (htoken : p.token ≠ .eof)
      (hinclude : p.include? = some found) (hway : p.way found.clean = .inPlace source) :
      Step e (.reading p waiting left)
        (.reading (p.inPlaceAt found.clean source).begin (p :: waiting) left)
  | without {p waiting left} {found : Path} (htoken : p.token ≠ .eof)
      (hinclude : p.include? = some found) (halone : ∀ source, p.way found.clean ≠ .alone source)
      (hinPlace : ∀ source, p.way found.clean ≠ .inPlace source) :
      Step e (.reading p waiting left)
        (.reading ((p.way found.clean).take id found.clean p).advance waiting left)

theorem Step.of_eq {e : Extractor} {s s' : Stage} (h : s.step e = some s') : Step e s s' := by
  cases s with
  | between session left =>
    cases left with
    | nil => cases h
    | cons i left =>
      obtain ⟨path, source⟩ := i
      simp only [step] at h
      split at h
      · rename_i hparsed
        cases h
        exact .pass hparsed
      · rename_i hnew
        cases h
        exact .input (Bool.eq_false_iff.2 hnew)
  | reading p waiting left =>
    simp only [step] at h
    split at h
    · rename_i htoken
      cases waiting with
      | nil =>
        cases h
        exact .close htoken
      | cons includer waiting =>
        cases h
        exact .rejoin htoken
    · rename_i htoken
      split at h
      · rename_i hinclude
        cases h
        exact .turn htoken hinclude
      · rename_i found hinclude
        cases h
        unfold follow
        split
        · exact .alone htoken hinclude ‹_›
        · exact .inPlace htoken hinclude ‹_›
        · exact .without htoken hinclude ‹_› ‹_›

/-- What every step keeps holds at every later stage. -/
theorem Reaches.keeps {e : Extractor} {s s' : Stage} {P : Stage → Prop} (h : Reaches e s s')
    (hstep : ∀ {s s'}, Step e s s' → P s → P s') (hs : P s) : P s' := by
  induction h with
  | refl => exact hs
  | tail _ heq ih => exact hstep (.of_eq heq) ih

end Stage

namespace Extractor

/-- The first stage of an extraction. -/
def start (e : Extractor) (inputs : List (Path × String)) : Stage :=
  .between { forest := e.forest, cache := e.cache }
    (inputs.map fun (path, source) ↦ (path.clean, source))

end Extractor

theorem Nesting.getLastD_items (n : Nesting) (notes : List Note) (line : Nat) (xs : List Lexeme)
    (t : Token) : ((n.items notes line xs).map Item.token).getLastD t = .eof := by
  induction xs generalizing n notes line t with
  | nil => rfl
  | cons x xs ih =>
    rw [items]
    split
    · exact ih _ _ _ _
    · rw [List.map_cons, List.getLastD_cons]
      exact ih _ _ _ _

namespace Parser

variable {e : Extractor} {p q : Parser} {path : Path} {source : String} {depth : Nat}
  {waiting : List Parser} {left : List (Path × String)}

theorem frame_of_fixed (h : q.fixed = p.fixed) : q.frame = p.frame := by
  simp only [fixed, Prod.mk.injEq] at h
  obtain ⟨hoptions, hfiles, hfile, hinPlace, hstack, htrailing, htree, -⟩ := h
  simp only [frame, hoptions, hfiles, hfile, hinPlace, hstack, htrailing, htree]

theorem frame_finish (p : Parser) : p.finish.frame = p.frame :=
  frame_of_fixed (congrArg Prod.fst (p.spot_notes p.trailing))

theorem onward_begin (p : Parser) : Onward 1 p p.begin := onward_advance_of_spot rfl

theorem ends_aloneAt (options : Options) (files : FileTree) (file : Path) (source : String)
    (stack : List Path) (session : Session) :
    (aloneAt options files file source stack session).Ends := Nesting.getLastD_items _ _ _ _ _

theorem ends_inPlaceAt (p : Parser) (path : Path) (source : String) :
    (p.inPlaceAt path source).Ends := Nesting.getLastD_items _ _ _ _ _

theorem unread_congr (h : q.frame = p.frame) :
    q.files.unread q.stack = p.files.unread p.stack := by
  simp only [frame, Prod.mk.injEq] at h
  rw [h.2.1, h.2.2.2.2.1]

/-- A turn of the main loop goes past a token, also at an include. -/
theorem turn_followInclude (parse : Parser → Parser) (hends : p.Ends) (htoken : p.token ≠ .eof) :
    (p.turn (followInclude parse)).frame = p.frame ∧ (p.turn (followInclude parse)).Ends ∧
      (p.turn (followInclude parse)).rest.length < p.rest.length := by
  cases hinclude : p.include? with
  | none =>
    have hturn : Onward 1 p (p.turn (followInclude parse)) := onward_turn hinclude
    exact ⟨frame_of_fixed hturn.fixed, hturn.ends hends, hturn.lt hends htoken⟩
  | some found =>
    obtain ⟨hframe, hsame, hrest⟩ := place_followInclude parse found p
    rw [turn_of_include?_eq_some hinclude]
    generalize followInclude parse found p = q at hframe hsame hrest ⊢
    have hq : q.Ends := by rwa [Ends, hrest, hsame]
    have hnext := q.onward_advance
    exact ⟨(frame_of_fixed hnext.fixed).trans hframe, hnext.ends hq,
      hrest ▸ hnext.lt hq (hsame ▸ htoken)⟩

/-- An includer goes on where it stood. -/
theorem rejoin_place (includer p : Parser) :
    (includer.rejoin p).frame = includer.frame ∧ (includer.Ends → (includer.rejoin p).Ends) := by
  unfold rejoin
  split
  · have hnext := onward_advance (clearPending (clearProspective { includer with
      session := { p.session with cache := p.session.cache.addBlacklisted p.file }
      messages := p.messages }))
    have hframe := frame_of_fixed hnext.fixed
    exact ⟨hframe, hnext.ends⟩
  · dsimp only
    generalize store p.session p.file (p.outcome p.tree) true = session
    generalize representative session.forest (p.outcome p.tree) = tree
    have hnext := onward_advance (clearPending (clearProspective { includer with
      session := { session with forest := session.forest.addInclude includer.tree tree } }))
    have hframe := frame_of_fixed hnext.fixed
    exact ⟨hframe, hnext.ends⟩

/-- A header that was read on its own: the includer goes on as `take` says. -/
theorem rejoin_alone {parse : Parser → Parser} {c : Parser}
    (hc : c = aloneAt p.options p.files path source (p.stack ++ [path]) p.session)
    (hframe : (parse c).frame = c.frame) :
    p.rejoin (parse c) = ((Way.alone source).take parse path p).advance := by
  subst hc
  simp only [frame, Prod.mk.injEq] at hframe
  obtain ⟨-, -, hfile, hinPlace, -, -, htree⟩ := hframe
  rw [Way.take, includeAlone, detached_eq, rejoin, hfile, hinPlace, htree]
  rfl

theorem rejoin_inPlace {parse : Parser → Parser} {c : Parser} (hc : c = p.inPlaceAt path source)
    (hframe : (parse c).frame = c.frame) :
    p.rejoin (parse c) = ((Way.inPlace source).take parse path p).advance := by
  subst hc
  simp only [frame, Prod.mk.injEq] at hframe
  obtain ⟨-, -, hfile, hinPlace, -, -, -⟩ := hframe
  rw [Way.take, includeInPlace, rejoin, hfile, hinPlace]
  rfl

/-- A file that is read at an include is readable, and none that is being read already. -/
theorem mem_unread_of_way {found : Path}
    (h : p.way found.clean = .alone source ∨ p.way found.clean = .inPlace source) :
    found.clean ∈ p.files.unread p.stack := by
  have hreads : p.stack.findIdx? found.clean.same = none ∧
      p.files.readText found.clean = .ok source := by
    have htakes := p.takes_way found.clean
    rcases h with h | h <;> rw [h] at htakes
    · cases htakes with
      | alone hstack _ _ _ htext => exact ⟨hstack, htext⟩
    · cases htakes with
      | inPlace hstack htext => exact ⟨hstack, htext⟩
  refine ⟨⟨⟨found, rfl⟩, source, hreads.2⟩, fun q hq ↦ ?_⟩
  exact List.findIdx?_eq_none_iff.1 hreads.1 q hq

end Parser

namespace Stage

variable {e : Extractor} {p : Parser} {depth : Nat} {left : List (Path × String)}

/-- Reading a file to its end, where `depth` bounds how many files can be read within it. -/
def Simulates (e : Extractor) (left : List (Path × String)) (depth : Nat) : Prop :=
  ∀ (p : Parser) waiting, p.Ends → (p.files.unread p.stack).ncard < depth →
    ∃ q, Reaches e (.reading p.begin waiting left) (.reading q waiting left) ∧ q.token = .eof ∧
      q.finish = p.parse depth ∧ q.frame = p.frame

/-- A file that is read at an include is read to its end, and then the includer goes on. -/
theorem reaches_rejoin (hdepth : Simulates e left depth) (waiting : List Parser) {found : Path}
    {source : String} (hunread : (p.files.unread p.stack).ncard < depth + 1) {c : Parser}
    (hends : c.Ends) (hfiles : c.files = p.files) (hstack : c.stack = p.stack ++ [found.clean])
    (hway : p.way found.clean = .alone source ∨ p.way found.clean = .inPlace source) :
    (c.parse depth).frame = c.frame ∧
      Reaches e (.reading c.begin (p :: waiting) left)
        (.reading (p.rejoin (c.parse depth)) waiting left) := by
  have hless : (c.files.unread c.stack).ncard < depth := by
    rw [hfiles, hstack]
    have := FileTree.ncard_unread_lt (Parser.mem_unread_of_way hway)
    omega
  obtain ⟨q, hreaches, htoken, hfinish, hframe⟩ := hdepth c (p :: waiting) hends hless
  refine ⟨hfinish ▸ (q.frame_finish.trans hframe), hreaches.tail ?_⟩
  rw [← hfinish]
  simp only [step, htoken, if_true]

theorem reaches_turn (hdepth : Simulates e left depth) (waiting : List Parser)
    (htoken : p.token ≠ .eof) (hunread : (p.files.unread p.stack).ncard < depth + 1) :
    Reaches e (.reading p waiting left)
      (.reading (p.turn (Parser.followInclude (Parser.parse depth))) waiting left) := by
  cases hinclude : p.include? with
  | none =>
    apply Relation.ReflTransGen.single
    simp only [step, htoken, if_false, hinclude]
    rw [Parser.turn_of_include?_eq_none hinclude]
  | some found =>
    rw [Parser.turn_of_include?_eq_some hinclude, Parser.followInclude_eq]
    have hstep : (Stage.reading p waiting left).step e =
        some (follow p found.clean waiting left) := by
      simp only [step, htoken, if_false, hinclude]
    refine .head hstep ?_
    unfold follow
    cases hway : p.way found.clean with
    | alone source =>
      have hends := Parser.ends_aloneAt p.options p.files found.clean source
        (p.stack ++ [found.clean]) p.session
      obtain ⟨hframe, hreaches⟩ :=
        reaches_rejoin hdepth waiting hunread hends rfl rfl (.inl hway)
      rwa [Parser.rejoin_alone rfl hframe] at hreaches
    | inPlace source =>
      obtain ⟨hframe, hreaches⟩ := reaches_rejoin hdepth waiting hunread
        (p.ends_inPlaceAt found.clean source) rfl rfl (.inr hway)
      rwa [Parser.rejoin_inPlace rfl hframe] at hreaches
    | _ => exact .refl

theorem reaches_loop (hdepth : Simulates e left depth) (waiting : List Parser) (n : Nat)
    (hends : p.Ends) (hn : p.rest.length < n)
    (hunread : (p.files.unread p.stack).ncard < depth + 1) :
    Reaches e (.reading p waiting left)
        (.reading (Parser.loop (Parser.followInclude (Parser.parse depth)) n p) waiting left) ∧
      (Parser.loop (Parser.followInclude (Parser.parse depth)) n p).token = .eof ∧
      (Parser.loop (Parser.followInclude (Parser.parse depth)) n p).frame = p.frame := by
  induction n generalizing p with
  | zero => cases hn
  | succ n ih =>
    rw [Parser.loop]
    split
    · rename_i htoken
      exact ⟨.refl, htoken, rfl⟩
    · rename_i htoken
      obtain ⟨hframe, hq, hless⟩ := Parser.turn_followInclude (Parser.parse depth) hends htoken
      obtain ⟨hreaches, heof, hkept⟩ :=
        ih hq (by omega) (by rwa [Parser.unread_congr hframe])
      exact ⟨(reaches_turn hdepth waiting htoken hunread).trans hreaches, heof, hkept.trans hframe⟩

theorem simulates (e : Extractor) (left : List (Path × String)) (depth : Nat) :
    Simulates e left depth := by
  induction depth with
  | zero => exact fun p waiting hends hunread ↦ (Nat.not_lt_zero _ hunread).elim
  | succ depth ih =>
    intro p waiting hends hunread
    have hbegin := p.onward_begin
    have hframe := Parser.frame_of_fixed hbegin.fixed
    obtain ⟨hreaches, htoken, hkept⟩ := reaches_loop ih waiting p.begin.budget
      (hbegin.ends hends) (Nat.lt_succ_self _) (by rwa [Parser.unread_congr hframe])
    exact ⟨_, hreaches, htoken, (Parser.run_eq _ p).symm, hkept.trans hframe⟩

/-- From one input to the next. -/
theorem reaches_parseInput (e : Extractor) (session : Session) (path : Path) (source : String)
    (left : List (Path × String)) :
    Reaches e (.between session ((path, source) :: left))
      (.between (e.parseInput session path source) left) := by
  unfold Extractor.parseInput
  by_cases hparsed : Extractor.isParsed session.cache path = true
  · apply Relation.ReflTransGen.single
    simp only [step, hparsed, if_true]
  · rw [if_neg hparsed]
    have hends := Parser.ends_aloneAt e.options e.files path source [path] session
    have hunread : (e.files.unread [path]).ncard < Parser.depthLimit :=
      Nat.lt_of_le_of_lt (e.files.ncard_unread_le _) e.files.ncard_readable_lt
    obtain ⟨q, hreaches, htoken, hfinish, hframe⟩ :=
      simulates e left Parser.depthLimit _ [] hends hunread
    have hfirst : (Stage.between session ((path, source) :: left)).step e = some (.reading
        (Parser.aloneAt e.options e.files path source [path] session).begin [] left) := by
      simp only [step, hparsed, Bool.false_eq_true, if_false]
    have hlast : (Stage.reading q [] left).step e = some (.between q.finish.close left) := by
      simp only [step, htoken, if_true]
    have hkept := q.frame_finish.trans hframe
    simp only [Parser.frame, Prod.mk.injEq] at hkept
    obtain ⟨-, -, hfile, -, -, -, htree⟩ := hkept
    refine .head hfirst (hreaches.tail (hlast.trans ?_))
    rw [Parser.close, hfile, htree, hfinish, Parser.detached_eq]
    rfl

theorem reaches_end (e : Extractor) (session : Session) (left : List (Path × String)) :
    Reaches e (.between session left)
      (.between (left.foldl (fun session i ↦ e.parseInput session i.1 i.2) session) []) := by
  induction left generalizing session with
  | nil => exact .refl
  | cons i left ih => exact (reaches_parseInput e session i.1 i.2 left).trans (ih _)

end Stage

end Harvest
