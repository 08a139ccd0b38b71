import Harvest.Proofs.Extract.Inclusion
import Harvest.Proofs.Parser.Following
import Harvest.Proofs.Parser.Standing

/-!
# The readings of a run

A run reads files on their own, inputs and headers, and other files in place of an include. Each
reading of a file on its own has a list of messages, which takes those of the files that are read in
place on the way. The log of a run has these readings in the order in which they end, and the cache
is what the log says: a file has the messages of its last reading with any.

Main statement: a message is reported if and only if it was recorded in the last reading with
messages of an input that is nowhere read in place.
-/

namespace Harvest

/-- A file that was read in place of an include, and the messages recorded on the way. -/
structure Insertion where
  file : Path
  messages : List Message

/-- A file that was read on its own, the messages recorded on the way, and the files that were read
in place meanwhile. -/
structure Reading where
  file : Path
  messages : List Message
  inserted : List Insertion

/-- What was read on the way: the readings that have ended, and the files that were read in place of
includes in the one that is under way. -/
structure Log where
  readings : List Reading := []
  inserted : List Insertion := []

namespace Log

instance : Append Log := ⟨fun a b ↦ ⟨a.readings ++ b.readings, a.inserted ++ b.inserted⟩⟩

@[simp]
theorem append_empty (l : Log) : l ++ ({} : Log) = l := by
  obtain ⟨readings, inserted⟩ := l
  exact congrArg₂ Log.mk (List.append_nil _) (List.append_nil _)

@[simp]
theorem empty_append (l : Log) : ({} : Log) ++ l = l := rfl

theorem readings_append (a b : Log) : (a ++ b).readings = a.readings ++ b.readings := rfl

theorem inserted_append (a b : Log) : (a ++ b).inserted = a.inserted ++ b.inserted := rfl

/-- The reading that was under way ends. -/
def finish (l : Log) (file : Path) (messages : List Message) : Log :=
  ⟨l.readings ++ [⟨file, messages, l.inserted⟩], []⟩

/-- A file that was read in place ends. -/
def insert (l : Log) (file : Path) (messages : List Message) : Log :=
  { l with inserted := l.inserted ++ [⟨file, messages⟩] }

/-- Whether a file was read in place. -/
def inserts (l : Log) (path : Path) : Bool :=
  (l.readings.flatMap Reading.inserted ++ l.inserted).any fun i ↦ path.same i.file

theorem inserts_append (a b : Log) (path : Path) :
    (a ++ b).inserts path = (a.inserts path || b.inserts path) := by
  simp only [inserts, readings_append, inserted_append, List.flatMap_append, List.any_append]
  ac_rfl

theorem inserts_finish (l : Log) (file : Path) (messages : List Message) (path : Path) :
    (l.finish file messages).inserts path = l.inserts path := by
  simp [inserts, finish]

theorem inserts_insert (l : Log) (file : Path) (messages : List Message) (path : Path) :
    (l.insert file messages).inserts path = (l.inserts path || path.same file) := by
  simp [inserts, insert, Bool.or_assoc]

end Log

namespace Parser

/-- The log of the main loop, where `follow` is that of an include. -/
def loopLog (includer : Includer) (follow : Path → Parser → Log) : Nat → Parser → Log
  | 0, _ => {}
  | n + 1, p =>
    if p.token = .eof then {}
    else (p.include?.elim {} fun found ↦ follow found p) ++
      loopLog includer follow n (p.turn includer)

def runLog (includer : Includer) (follow : Path → Parser → Log) (p : Parser) : Log :=
  loopLog includer follow p.ready.advance.budget p.ready.advance

/-- The log of an include, where `log` is that of reading a parser's file to its end. -/
def Way.log (parse : Parser → Parser) (log : Parser → Log) (path : Path) (p : Parser) : Way → Log
  | alone source =>
    let child := aloneAt p.options p.files path source (p.stack ++ [path]) p.session
    (log child).finish path (parse child).messages.toList
  | inPlace source =>
    let child := p.inPlaceAt path source
    (log child).insert path ((parse child).messages.toList.drop p.messages.size)
  | _ => {}

/-- The log of reading a file to its end. -/
def parseLog : Nat → Parser → Log
  | 0, p => p.runLog (fun _ p ↦ p) fun _ _ ↦ {}
  | depth + 1, p =>
    p.runLog (followInclude (parse depth)) fun found p ↦
      (p.way found.clean).log (parse depth) (parseLog depth) found.clean p

end Parser

namespace Extractor

/-- The readings that an input gives rise to. -/
def inputReadings (e : Extractor) (session : Session) (path : Path) (source : String) :
    List Reading :=
  if isParsed session.cache path then []
  else
    let p := Parser.aloneAt e.options e.files path source [path] session
    ((p.parseLog Parser.depthLimit).finish path (p.parse Parser.depthLimit).messages.toList).readings

def readingsFrom (e : Extractor) : Session → List (Path × String) → List Reading
  | _, [] => []
  | session, (path, source) :: inputs =>
    e.inputReadings session path source ++
      e.readingsFrom (e.parseInput session path source) inputs

/-- The readings of a run, in the order in which they end. -/
def readings (e : Extractor) (inputs : List (Path × String)) : List Reading :=
  e.readingsFrom { forest := e.forest, cache := e.cache }
    (inputs.map fun (path, source) ↦ (path.clean, source))

end Extractor

/-- The messages that are kept for a path after a further reading. -/
def Reading.keep (path : Path) (kept : List Message) (r : Reading) : List Message :=
  if r.file.same path && !r.messages.isEmpty then r.messages else kept

/-- What is kept in the end belongs to the last reading of the file with messages. -/
theorem Reading.mem_foldl_keep {path : Path} {m : Message} (log : List Reading) :
    m ∈ log.foldl (Reading.keep path) [] ↔ ∃ before r after, log = before ++ r :: after ∧
      m ∈ r.messages ∧ r.file.same path ∧
      ∀ later ∈ after, later.file.same path → later.messages = [] := by
  induction log using List.reverseRecOn with
  | nil => simp
  | append_singleton log last ih =>
    rw [List.foldl_append, List.foldl_cons, List.foldl_nil, keep]
    constructor
    · intro hm
      split_ifs at hm with hlast
      · exact ⟨log, last, [], rfl, hm, (Bool.and_eq_true_iff.1 hlast).1, by simp⟩
      · obtain ⟨before, r, after, rfl, hmem, hfile, hafter⟩ := ih.1 hm
        refine ⟨before, r, after ++ [last], by simp, hmem, hfile, ?_⟩
        intro later hlater hsame
        rcases List.mem_append.1 hlater with hlater | hlater
        · exact hafter later hlater hsame
        · obtain rfl := List.mem_singleton.1 hlater
          simpa [hsame] using hlast
    · rintro ⟨before, r, after, heq, hmem, hfile, hafter⟩
      rcases List.eq_nil_or_concat after with rfl | ⟨after, other, rfl⟩
      · obtain ⟨-, hr⟩ := List.append_inj' heq rfl
        obtain rfl : last = r := by simpa using hr
        have hlast : (last.file.same path && !last.messages.isEmpty) = true := by
          simp [hfile, List.ne_nil_of_mem hmem]
        rwa [if_pos hlast]
      · have heq' : log ++ [last] = (before ++ r :: after) ++ [other] := by simpa using heq
        obtain ⟨rfl, hr⟩ := List.append_inj' heq' rfl
        obtain rfl : last = other := by simpa using hr
        have hlast : ¬(last.file.same path && !last.messages.isEmpty) = true := by
          intro h
          obtain ⟨hsame, hmessages⟩ := Bool.and_eq_true_iff.1 h
          rw [hafter last (by simp) hsame] at hmessages
          cases hmessages
        rw [if_neg hlast]
        exact ih.2 ⟨before, r, after, rfl, hmem, hfile, fun later hlater ↦
          hafter later (by simp [hlater])⟩

namespace IncludeCache

theorem messagesOf_setMessages_eq (c : IncludeCache) (file path : Path) (messages : List Message)
    (inserted : List Insertion) :
    (c.setMessages file messages).messagesOf path =
      Reading.keep path (c.messagesOf path) ⟨file, messages, inserted⟩ := by
  cases messages with
  | nil => simp [setMessages, Reading.keep]
  | cons m messages =>
    by_cases hfile : file.same path = true
    · have hpath : path.same file = true := (path.same_comm file).trans hfile
      simp [setMessages, messagesOf, Reading.keep, hfile, hpath]
    · rw [Bool.not_eq_true] at hfile
      rw [messagesOf_setMessages_of_not_same hfile]
      simp [Reading.keep, hfile]

theorem isBlacklisted_addBlacklisted (c : IncludeCache) (file path : Path) :
    (c.addBlacklisted file).isBlacklisted path = (c.isBlacklisted path || path.same file) := by
  unfold addBlacklisted
  split
  · rename_i hfile
    by_cases hpath : path.same file = true
    · -- The path has the same parts as one that is on the list.
      obtain ⟨other, hother, hsame⟩ := List.any_eq_true.1 hfile
      have hblacklisted : c.isBlacklisted path = true := by
        apply List.any_eq_true.2
        refine ⟨other, hother, ?_⟩
        simp only [Path.same, decide_eq_true_eq] at hpath hsame ⊢
        exact hpath.trans hsame
      rw [hblacklisted, Bool.true_or]
    · rw [Bool.not_eq_true] at hpath
      rw [hpath, Bool.or_false]
  · simp [isBlacklisted, Bool.or_comm]

end IncludeCache

/-- The second cache is what the first one becomes with the readings of a log. -/
structure Books (c : IncludeCache) (l : Log) (c' : IncludeCache) : Prop where
  messages : ∀ path, c'.messagesOf path = l.readings.foldl (Reading.keep path) (c.messagesOf path)
  blacklist : ∀ path, c'.isBlacklisted path = (c.isBlacklisted path || l.inserts path)

namespace Books

variable {a b c : IncludeCache} {l m : Log}

theorem of_eq (hmessages : b.messages = a.messages) (hblacklist : b.blacklist = a.blacklist) :
    Books a {} b where
  messages path := by
    rw [IncludeCache.messagesOf, hmessages]
    rfl
  blacklist path := by
    rw [IncludeCache.isBlacklisted, hblacklist]
    exact (Bool.or_false _).symm

theorem refl (c : IncludeCache) : Books c {} c := of_eq rfl rfl

theorem append (hab : Books a l b) (hbc : Books b m c) : Books a (l ++ m) c where
  messages path := by
    rw [hbc.messages, hab.messages, Log.readings_append, List.foldl_append]
  blacklist path := by
    rw [hbc.blacklist, hab.blacklist, Log.inserts_append, Bool.or_assoc]

theorem finish (h : Books a l b) (file : Path) (messages : List Message)
    (hmessages : c.messages = (b.setMessages file messages).messages)
    (hblacklist : c.blacklist = b.blacklist) : Books a (l.finish file messages) c where
  messages path := by
    rw [IncludeCache.messagesOf, hmessages, ← IncludeCache.messagesOf,
      IncludeCache.messagesOf_setMessages_eq _ _ _ _ l.inserted, h.messages, Log.finish,
      List.foldl_append]
    rfl
  blacklist path := by
    rw [IncludeCache.isBlacklisted, hblacklist, ← IncludeCache.isBlacklisted, h.blacklist,
      Log.inserts_finish]

theorem insert (h : Books a l b) (file : Path) (messages : List Message) :
    Books a (l.insert file messages) (b.addBlacklisted file) where
  messages path := by
    have hkept : (b.addBlacklisted file).messages = b.messages := by
      unfold IncludeCache.addBlacklisted
      split <;> rfl
    rw [IncludeCache.messagesOf, hkept, ← IncludeCache.messagesOf, h.messages]
    rfl
  blacklist path := by
    rw [IncludeCache.isBlacklisted_addBlacklisted, h.blacklist, Log.inserts_insert, Bool.or_assoc]

end Books

/-! ### What a parser keeps of a log -/

namespace Parser

/-- The second parser comes from the first one, and the log says what was read between them. No
message is dropped meanwhile. -/
structure Logged (p : Parser) (l : Log) (q : Parser) : Prop where
  books : Books p.session.cache l q.session.cache
  grows : p.messages.toList <+: q.messages.toList
  readings : ∀ r ∈ l.readings, ∀ i ∈ r.inserted, i.messages <:+: r.messages
  inserted : ∀ i ∈ l.inserted, i.messages <:+: q.messages.toList

namespace Logged

variable {p q r : Parser} {l m : Log}

theorem of_eq (hcache : q.session.cache = p.session.cache)
    (hmessages : p.messages.toList <+: q.messages.toList) : Logged p {} q where
  books := hcache ▸ .refl _
  grows := hmessages
  readings := by simp
  inserted := by simp

theorem append (hpq : Logged p l q) (hqr : Logged q m r) : Logged p (l ++ m) r where
  books := hpq.books.append hqr.books
  grows := hpq.grows.trans hqr.grows
  readings x hx := (List.mem_append.1 hx).elim (hpq.readings x) (hqr.readings x)
  inserted i hi := by
    rcases List.mem_append.1 hi with hi | hi
    · exact (hpq.inserted i hi).trans hqr.grows.isInfix
    · exact hqr.inserted i hi

/-- A step that reads no other file. -/
theorem step (hpq : Logged p l q) (hqr : Logged q {} r) : Logged p l r := by
  simpa using hpq.append hqr

end Logged

/-- Whatever is asked of the forest of one session, its cache stays as it is. -/
theorem fair_steady {α : Type} (cache : IncludeCache) (ask : Forest → Nat → α × Forest) :
    Fair (fun s t s' t' ↦ s' = s ∧ t' = t ∧ s.cache = cache) ask := by
  rintro s t _ _ ⟨rfl, rfl, hcache⟩
  exact ⟨rfl, rfl, rfl, hcache⟩

theorem steady_report (cache : IncludeCache) {s s' : Session} {t t' : Nat} (d : Diagnostic)
    (h : s' = s ∧ t' = t ∧ s.cache = cache) :
    ({ s' with diagnostics := s'.diagnostics.push d } : Session) =
        { s with diagnostics := s.diagnostics.push d } ∧ t' = t ∧ s.cache = cache := by
  obtain ⟨rfl, rfl, hcache⟩ := h
  exact ⟨rfl, rfl, hcache⟩

/-- A session with itself: its cache stays as it is, and messages are only added. -/
def steady (p : Parser) (follows : Path → Prop) : Bond where
  options := p.options
  files := p.files
  stack := p.stack
  stack' := p.stack
  Rel s t s' t' := s' = s ∧ t' = t ∧ s.cache = p.session.cache
  Lists _ messages := p.messages.toList <+: messages.toList
  Follows := follows
  qualify _ _ _ _ := fair_steady _ _
  unqualifiedContext _ := (fair_steady _ _).attributes (steady_report _)
  qualifiedContext _ _ := (fair_steady _ _).attributes (steady_report _)
  enter _ := fair_steady _ _
  modifyAt _ _ _ _ := fair_steady _ _
  report := steady_report _
  push h _ := by
    rw [Array.toList_push]
    exact h.trans (List.prefix_append _ _)

theorem tandem_steady (p : Parser) {follows : Path → Prop}
    (h : ∀ t ∈ p.token :: p.rest.map Item.token, ∀ found,
      includeTarget? p.options p.files p.file t = some found → follows found) :
    Tandem (p.steady follows) p.file p p :=
  ⟨rfl, rfl, rfl, rfl, rfl, rfl, ⟨rfl, rfl, rfl⟩, List.prefix_refl _, h⟩

theorem tandem_self (p : Parser) :
    Tandem (p.steady fun _ ↦ True) p.file p p :=
  p.tandem_steady fun _ _ _ _ ↦ trivial

variable {p q : Parser} {includer : Includer} {follow : Path → Parser → Log}

theorem Tandem.logged {file : Path} {follows : Path → Prop} (h : Tandem (p.steady follows) file q q) :
    Logged p {} q :=
  .of_eq h.rel.2.2 h.lists

theorem logged_turn (h : p.include? = none) : Logged p {} (p.turn includer) := by
  rw [show p.turn includer = p.turn fun _ p ↦ p from turn_of_include?_eq_none h]
  exact (p.tandem_self.turn fun _ _ _ ↦ p.tandem_self).logged

theorem logged_advance (p : Parser) : Logged p {} p.advance := p.tandem_self.advance.logged

theorem logged_loop (hfollow : ∀ found p, Logged p (follow found p) (includer found p)) (n : Nat)
    (p : Parser) : Logged p (loopLog includer follow n p) (loop includer n p) := by
  induction n generalizing p with
  | zero => exact .of_eq rfl (List.prefix_refl _)
  | succ n ih =>
    unfold loopLog loop
    split
    · exact .of_eq rfl (List.prefix_refl _)
    · apply Logged.append _ (ih _)
      cases hinclude : p.include? with
      | none => exact logged_turn hinclude
      | some found =>
        rw [turn_of_include?_eq_some hinclude]
        exact (hfollow found p).step (logged_advance _)

theorem logged_run (hfollow : ∀ found p, Logged p (follow found p) (includer found p))
    (p : Parser) : Logged p (p.runLog includer follow) (p.run includer) := by
  have hready : Logged p {} p.ready.advance := p.tandem_self.ready.advance.logged
  have hloop := logged_loop hfollow p.ready.advance.budget p.ready.advance
  have hnotes : ∀ (ns : List Note) (q : Parser), Logged q {} (ns.foldl note q) :=
    fun ns q ↦ (q.tandem_self.notes ns).logged
  have hread := hready.append hloop
  rw [Log.empty_append] at hread
  exact hread.step (hnotes _ _)

variable {parse : Parser → Parser} {log : Parser → Log}

theorem logged_alone (hparse : ∀ p, Logged p (log p) (parse p)) (path : Path) (source : String)
    (p : Parser) :
    Logged p ((Way.alone source).log parse log path p) ((Way.alone source).take parse path p) := by
  obtain ⟨hbooks, -, hreadings, hinserted⟩ :=
    hparse (aloneAt p.options p.files path source (p.stack ++ [path]) p.session)
  refine ⟨?_, List.prefix_refl _, ?_, by simp [Way.log, Log.finish]⟩
  · have hstart : Books p.session.cache {} (aloneAt p.options p.files path source (p.stack ++ [path])
        p.session).session.cache := .of_eq rfl rfl
    have hread := hstart.append hbooks
    rw [Log.empty_append] at hread
    exact hread.finish path _ (messages_store _ path _ true) (blacklist_store _ path _ true)
  · intro r hr i hi
    rcases List.mem_append.1 hr with hr | hr
    · exact hreadings r hr i hi
    · obtain rfl := List.mem_singleton.1 hr
      exact hinserted i hi

theorem logged_inPlace (hparse : ∀ p, Logged p (log p) (parse p)) (path : Path) (source : String)
    (p : Parser) :
    Logged p ((Way.inPlace source).log parse log path p)
      ((Way.inPlace source).take parse path p) := by
  obtain ⟨hbooks, hgrows, hreadings, hinserted⟩ := hparse (p.inPlaceAt path source)
  refine ⟨hbooks.insert path _, hgrows, hreadings, ?_⟩
  intro i hi
  rcases List.mem_append.1 hi with hi | hi
  · exact hinserted i hi
  · obtain rfl := List.mem_singleton.1 hi
    exact (List.drop_suffix _ _).isInfix

theorem logged_followInclude (hparse : ∀ p, Logged p (log p) (parse p)) (found : Path)
    (p : Parser) :
    Logged p ((p.way found.clean).log parse log found.clean p) (followInclude parse found p) := by
  rw [followInclude_eq]
  cases p.way found.clean with
  | skip => exact .of_eq rfl (List.prefix_refl _)
  | cycle paths => exact ⟨.of_eq rfl rfl, List.prefix_refl _, by simp [Way.log], by simp [Way.log]⟩
  | known trees => exact .of_eq rfl (List.prefix_refl _)
  | unreadable e => exact .of_eq rfl (List.prefix_refl _)
  | alone source => exact logged_alone hparse found.clean source p
  | inPlace source => exact logged_inPlace hparse found.clean source p

/-- The log of a file says what was read on the way to its end. -/
theorem logged_parse (depth : Nat) (p : Parser) : Logged p (p.parseLog depth) (p.parse depth) := by
  induction depth generalizing p with
  | zero => exact logged_run (fun _ p ↦ .of_eq rfl (List.prefix_refl _)) p
  | succ depth ih => exact logged_run (logged_followInclude ih) p

end Parser

namespace Extractor

/-- The readings of an input, as a log of their own. -/
theorem books_parseInput (e : Extractor) (session : Session) (path : Path) (source : String) :
    Books session.cache ⟨e.inputReadings session path source, []⟩
      (e.parseInput session path source).cache := by
  unfold inputReadings parseInput
  split
  · exact .refl _
  · have hbooks := (Parser.logged_parse Parser.depthLimit
      (Parser.aloneAt e.options e.files path source [path] session)).books
    have hstart : Books session.cache {} (Parser.aloneAt e.options e.files path source [path]
      session).session.cache := .of_eq rfl rfl
    have hread := hstart.append hbooks
    rw [Log.empty_append] at hread
    exact hread.finish path _ (Parser.messages_store _ path _ _) (Parser.blacklist_store _ path _ _)

theorem books_inputs (e : Extractor) (session : Session) (inputs : List (Path × String)) :
    Books session.cache ⟨e.readingsFrom session inputs, []⟩
      (inputs.foldl (fun session (path, source) ↦ e.parseInput session path source)
        session).cache := by
  induction inputs generalizing session with
  | nil => exact .refl _
  | cons input inputs ih =>
    exact (e.books_parseInput session input.1 input.2).append (ih _)

theorem inserted_readingsFrom (e : Extractor) (session : Session) (inputs : List (Path × String)) :
    ∀ r ∈ e.readingsFrom session inputs, ∀ i ∈ r.inserted, i.messages <:+: r.messages := by
  induction inputs generalizing session with
  | nil => simp [readingsFrom]
  | cons input inputs ih =>
    intro r hr
    rcases List.mem_append.1 hr with hr | hr
    · unfold inputReadings at hr
      split at hr
      · cases hr
      · have hlogged := Parser.logged_parse Parser.depthLimit
          (Parser.aloneAt e.options e.files input.1 input.2 [input.1] session)
        rcases List.mem_append.1 hr with hr | hr
        · exact hlogged.readings r hr
        · obtain rfl := List.mem_singleton.1 hr
          exact hlogged.inserted
    · exact ih _ r hr

theorem mem_messages (e : Extractor) (inputs : List (Path × String)) (m : Message) :
    m ∈ (e.extractFiles inputs).1.messages ↔
      ∃ input ∈ inputs, (e.extractFiles inputs).2.cache.isBlacklisted input.1.clean = false ∧
        m ∈ (e.extractFiles inputs).2.cache.messagesOf input.1.clean := by
  simp [extractFiles, and_assoc]

section New

variable (options : Options) (files : FileTree) (inputs : List (Path × String)) (path : Path)

/-- After a run on a new extractor, a file has the messages of its last reading with any. -/
theorem messagesOf_run :
    (extractFiles { options, files } inputs).2.cache.messagesOf path =
      (readings { options, files } inputs).foldl (Reading.keep path) [] :=
  (books_inputs { options, files } {} _).messages path

/-- After a run on a new extractor, exactly the files that were read in place are blacklisted. -/
theorem isBlacklisted_run :
    (extractFiles { options, files } inputs).2.cache.isBlacklisted path = false ↔
      ∀ r ∈ readings { options, files } inputs, ∀ i ∈ r.inserted, ¬ path.same i.file := by
  have hpath : (extractFiles { options, files } inputs).2.cache.isBlacklisted path =
      (⟨readings { options, files } inputs, []⟩ : Log).inserts path :=
    (books_inputs { options, files } {} _).blacklist path
  simp [hpath, Log.inserts]

/-- What was recorded in place of an include is part of what was recorded in the reading of the
includer, and a message is reported if and only if it was recorded in the last reading with messages
of an input that is nowhere read in place. -/
theorem mem_messages_iff :
    (∀ r ∈ readings { options, files } inputs, ∀ i ∈ r.inserted, i.messages <:+: r.messages) ∧
      ∀ m, m ∈ (extractFiles { options, files } inputs).1.messages ↔
        ∃ before r after, readings { options, files } inputs = before ++ r :: after ∧
          m ∈ r.messages ∧ (∃ input ∈ inputs, r.file.same input.1.clean) ∧
          (∀ other ∈ readings { options, files } inputs, ∀ i ∈ other.inserted,
            ¬ r.file.same i.file) ∧
          ∀ later ∈ after, later.file.same r.file → later.messages = [] := by
  refine ⟨inserted_readingsFrom _ _ _, fun m ↦ ?_⟩
  rw [mem_messages]
  constructor
  · rintro ⟨input, hinput, hown, hm⟩
    rw [messagesOf_run, Reading.mem_foldl_keep] at hm
    obtain ⟨before, r, after, hlog, hmem, hfile, hafter⟩ := hm
    refine ⟨before, r, after, hlog, hmem, ⟨input, hinput, hfile⟩, ?_, ?_⟩
    · intro other hother i hi
      rw [r.file.same_comm, Path.same_congr hfile, Path.same_comm]
      exact (isBlacklisted_run options files inputs _).1 hown other hother i hi
    · intro later hlater hsame
      rw [Path.same_congr hfile] at hsame
      exact hafter later hlater hsame
  · rintro ⟨before, r, after, hlog, hmem, ⟨input, hinput, hfile⟩, hplace, hafter⟩
    refine ⟨input, hinput, (isBlacklisted_run options files inputs _).2 ?_, ?_⟩
    · intro other hother i hi
      rw [Path.same_comm, ← Path.same_congr hfile, Path.same_comm]
      exact hplace other hother i hi
    · rw [messagesOf_run, Reading.mem_foldl_keep]
      refine ⟨before, r, after, hlog, hmem, hfile, fun later hlater hsame ↦ ?_⟩
      rw [← Path.same_congr hfile] at hsame
      exact hafter later hlater hsame

end New

end Extractor

/-! ### A message that is lost -/

namespace Parser

variable {p : Parser} {includer : Includer} {follow : Path → Parser → Log}

theorem Tandem.include?_mem {B : Bond} {file found : Path} {q : Parser} (h : Tandem B file p q)
    (hfound : p.include? = some found) : B.Follows found := by
  unfold include? at hfound
  split at hfound
  · cases hfound
  · rw [h.options, h.files, h.reads] at hfound
    exact h.follows _ List.mem_cons_self found hfound

/-- Where no include is ahead, nothing is logged. -/
theorem runLog_eq_empty (h : ∀ i ∈ p.rest, includeTarget? p.options p.files p.file i.token = none)
    (htoken : p.token = .eof) : p.runLog includer follow = {} := by
  have hloop : ∀ (n : Nat) (q : Parser),
      Tandem (p.steady fun _ ↦ False) p.file q q →
        loopLog includer follow n q = {} := by
    intro n
    induction n with
    | zero => exact fun _ _ ↦ rfl
    | succ n ih =>
      intro q hq
      have hnone : q.include? = none := by
        cases hinclude : q.include? with
        | none => rfl
        | some found => exact (hq.include?_mem hinclude).elim
      have hturn : q.turn includer = q.turn fun _ p ↦ p := turn_of_include?_eq_none hnone
      rw [loopLog, hnone, hturn, ih _ (hq.turn fun _ _ _ ↦ hq)]
      split <;> rfl
  apply hloop
  apply Tandem.advance
  apply Tandem.ready
  apply p.tandem_steady
  intro t ht found hfound
  rcases List.mem_cons.1 ht with rfl | ht
  · rw [htoken] at hfound
    cases hfound
  · obtain ⟨i, hi, rfl⟩ := List.mem_map.1 ht
    rw [h i hi] at hfound
    cases hfound

/-- A file that consists of one include is read as the included file is. -/
theorem parse_include {written : String} {found : Path} {l l' : Nat}
    (hrest : p.rest = [⟨[], .quotedInclude written, l, {}⟩, ⟨[], .eof, l', {}⟩])
    (htrailing : p.trailing = [])
    (hresolve : resolveInclude p.files p.file written true p.options.includePaths = some found)
    (depth : Nat) :
    (p.parse (depth + 1)).messages =
        (followInclude (parse depth) found (p.ready.load p.rest)).messages ∧
      p.parseLog (depth + 1) = ((p.ready.load p.rest).way found.clean).log (parse depth)
        (parseLog depth) found.clean (p.ready.load p.rest) := by
  have hadvance : p.ready.advance = p.ready.load p.rest := by
    rw [hrest, advance, show p.ready.rest = _ from hrest]
    rfl
  have hbudget : (p.ready.load p.rest).budget = 2 := by rw [hrest]; rfl
  have htoken : (p.ready.load p.rest).token ≠ .eof := by
    rw [hrest]
    simp [load]
  have hinclude : (p.ready.load p.rest).include? = some found := by
    rw [hrest]
    exact hresolve
  generalize hq : p.ready.load p.rest = q at *
  have hnext : q.rest = [⟨[], .eof, l', {}⟩] := by rw [← hq, hrest]; rfl
  have hend : q.trailing = [] := by rw [← hq, hrest]; exact htrailing
  have hturn : q.turn (followInclude (parse depth)) =
      (followInclude (parse depth) found q).advance := turn_of_include?_eq_some hinclude
  obtain ⟨hframe, -, hleft⟩ := place_followInclude (parse depth) found q
  have hkept : (followInclude (parse depth) found q).trailing = q.trailing :=
    congrArg (·.2.2.2.2.2.1) hframe
  rw [hnext] at hleft
  rw [hend] at hkept
  generalize hr : followInclude (parse depth) found q = r at *
  have hlast : r.advance.token = .eof ∧ r.advance.trailing = [] ∧
      r.advance.messages = r.messages := by
    rw [advance, hleft]
    exact ⟨rfl, hkept, rfl⟩
  constructor
  · change ((loop (followInclude (parse depth)) p.ready.advance.budget
      p.ready.advance).trailing.foldl note (loop (followInclude (parse depth))
        p.ready.advance.budget p.ready.advance)).messages = _
    rw [hadvance, hbudget, loop, if_neg htoken, hturn, loop, if_pos hlast.1, hlast.2.1]
    exact hlast.2.2
  · rw [parseLog, runLog, hadvance, hbudget, loopLog, if_neg htoken, hinclude, hturn, loopLog,
      if_pos hlast.1]
    exact Log.append_empty _

theorem way_eq_alone {path : Path} {source : String}
    (hincluded : p.options.excludes path = false)
    (hstack : p.stack.findIdx? path.same = none)
    (hcache : Extractor.isParsed p.session.cache path = false) (hsnapshot : p.snapshot = {})
    (hheader : path.isHeader = true) (hsource : p.files.readText path = .ok source) :
    p.way path = .alone source := by
  simp only [Extractor.isParsed, Bool.or_eq_false_iff, Bool.not_eq_false'] at hcache
  simp [way, hincluded, hstack, hsnapshot, hcache, hheader, hsource]

theorem way_eq_inPlace {path : Path} {source : String}
    (hincluded : p.options.excludes path = false)
    (hstack : p.stack.findIdx? path.same = none) (hheader : path.isHeader = false)
    (hsource : p.files.readText path = .ok source) : p.way path = .inPlace source := by
  simp [way, hincluded, hstack, hheader, hsource]

end Parser

namespace FileTree

variable {t : FileTree} {name : String} {bytes : ByteArray}

/-- A name in the working directory of a tree, which is the root. -/
theorem resolve_of_entry (hrefusal : refusal? ⟨name⟩ = none) (hhome : t.home = []) (hsteps : steps ⟨name⟩ = [name])
    (hstart : start [] ⟨name⟩ = []) (hplain : name ∉ ["", ".", ".."])
    (hentry : t.entries.lookup [name] = some (.file bytes)) : t.resolve ⟨name⟩ = .ok [name] := by
  simp only [List.mem_cons, List.not_mem_nil, or_false, not_or] at hplain
  simp [resolve, hrefusal, hsteps, hstart, hhome, maxLinks, follow, followWith, entry?,
    Entry.isDirectory, hplain, hentry]

/-- A quoted include of a file beside the including one finds it. -/
theorem resolveInclude_of_resolve (hresolve : t.resolve ⟨name⟩ = .ok [name])
    (hentry : t.entries.lookup [name] = some (.file bytes)) {from_ : Path}
    (hcandidates : includeCandidates from_ name true [] = [⟨name⟩])
    (hclean : Path.clean ⟨name⟩ = ⟨name⟩) : resolveInclude t from_ name true [] = some ⟨name⟩ := by
  have hfile : t.isFile ⟨name⟩ = true := by
    rw [isFile, get?, resolve?, hresolve]
    simp [Except.toOption, entry?, hentry, Entry.isFile]
  rw [resolveInclude, hcandidates, List.find?_cons, hfile]
  simp [hclean]

end FileTree

namespace Extractor

theorem items_including (written : String)
    (hwritten : written.toList.all Token.isLiteralChar = true) :
    ∃ l l', (Stream.ofText (including written "")).items =
        [⟨[], .quotedInclude written, l, {}⟩, ⟨[], .eof, l', {}⟩] ∧
      (Stream.ofText (including written "")).trailing = [] := by
  have hblank : Spells false (.done : Outline false).tokens "".toList := .blank (by decide)
  obtain ⟨⟨l, _, hitems, l', _, rfl, rfl⟩, htrailing⟩ := Stream.carries_including hwritten hblank
  exact ⟨l, l', hitems, htrailing⟩

/-- A class with one call. -/
def nestedClass : Outline false :=
  .classBody ⟨"C", Eq.refl true⟩
    (.function ⟨"f", Eq.refl true⟩ (.call (.of "s" (Eq.refl true)) .done) .done) .done

/-- A file that includes a header, which includes a file that is read in place. -/
def nestedFiles : FileTree :=
  { entries :=
      [(["main.cpp"], .file ⟨(Text.Utf8.encode (including "h.h" "").toList).toArray⟩),
        (["h.h"], .file ⟨(Text.Utf8.encode (including "x.cpp" "").toList).toArray⟩),
        (["x.cpp"], .file ⟨(Text.Utf8.encode (spaced nestedClass.tokens)).toArray⟩)] }

/-- The inputs are the includer and the file that is read in place. -/
def nestedInputs : List (Path × String) :=
  [(⟨"main.cpp"⟩, including "h.h" ""), (⟨"x.cpp"⟩, String.ofList (spaced nestedClass.tokens))]

/-- What the inner file has to say, read in place of its include in a file that has said nothing. -/
theorem parse_nestedClass {forest : Forest} {id : Nat} {session : Session}
    (hforest : session.forest = forest.plant id) (hdiagnostics : session.diagnostics = #[])
    (stack : List Path) (depth : Nat) {p : Parser}
    (hp : p = Parser.start {} nestedFiles ⟨"x.cpp"⟩ (String.ofList (spaced nestedClass.tokens)) true
      stack forest.trees.size #[] session) :
    (∃ m, (p.parse depth).messages.toList = [m] ∧ m.file = "x.cpp") ∧ p.parseLog depth = {} := by
  have hspell : Spells false nestedClass.tokens
      (String.ofList (spaced nestedClass.tokens)).toList := by
    rw [String.toList_ofList]
    exact spells_spaced _ _
  constructor
  · obtain ⟨includer, hparse⟩ := Parser.parse_eq_run depth
    obtain ⟨-, -, hyield⟩ := Parser.run_start includer hspell (by decide) (by decide) nestedFiles
      ⟨"x.cpp"⟩ true stack forest.trees.size #[] _ hp
    have hempty : p.yield = ⟨forest.plant id, [], []⟩ := by
      rw [hp]
      simp [Parser.yield, Parser.start, Parser.forest, hforest, hdiagnostics]
    rw [hempty, ← hparse] at hyield
    have hmessages : (p.parse depth).messages.toList.map Message.unlined =
        [.plain "x.cpp" "C" "s"] :=
      (congrArg Yield.messages hyield).trans ((yield_outline _ _ _ _).1.trans (by decide))
    obtain ⟨m, hm, hplain⟩ := List.map_eq_singleton_iff.1 hmessages
    exact ⟨m, hm, congrArg Message.file hplain⟩
  · have hplain : ∀ i ∈ p.rest, includeTarget? p.options p.files p.file i.token = none := by
      obtain ⟨hcarries, -⟩ := nestedClass.carries_ofText hspell
      have hnone : ∀ t ∈ nestedClass.tokens ++ [.eof],
          includeTarget? p.options p.files p.file t = none := by
        simp [nestedClass, Declarations.tokens, Block.tokens, includeTarget?]
      intro i hi
      refine hnone i.token ?_
      rw [← Parser.carries_tokens hcarries]
      rw [hp] at hi
      exact List.mem_map_of_mem hi
    cases depth with
    | zero => exact Parser.runLog_eq_empty hplain (by rw [hp]; rfl)
    | succ depth => exact Parser.runLog_eq_empty hplain (by rw [hp]; rfl)

theorem resolve_nestedFiles :
    nestedFiles.resolve ⟨"h.h"⟩ = .ok ["h.h"] ∧ nestedFiles.resolve ⟨"x.cpp"⟩ = .ok ["x.cpp"] :=
  ⟨FileTree.resolve_of_entry (by decide) rfl (by decide) (by decide) (by decide) rfl,
    FileTree.resolve_of_entry (by decide) rfl (by decide) (by decide) (by decide) rfl⟩

/-- The header has one message, that of the file that is read in place. -/
theorem parse_nestedHeader (session : Session) (hdiagnostics : session.diagnostics = #[])
    (depth : Nat) {p : Parser}
    (hp : p = Parser.aloneAt {} nestedFiles ⟨"h.h"⟩ (including "x.cpp" "") [⟨"main.cpp"⟩, ⟨"h.h"⟩]
      session) :
    ∃ m, m.file = "x.cpp" ∧ (p.parse (depth + 1)).messages.toList = [m] ∧
      p.parseLog (depth + 1) = ⟨[], [⟨⟨"x.cpp"⟩, [m]⟩]⟩ := by
  obtain ⟨l, l', hitems, htrailing⟩ := items_including "x.cpp" (by decide)
  have hrest : p.rest = (Stream.ofText (including "x.cpp" "")).items := by rw [hp]; rfl
  have hfound : resolveInclude nestedFiles ⟨"h.h"⟩ "x.cpp" true [] = some ⟨"x.cpp"⟩ :=
    FileTree.resolveInclude_of_resolve resolve_nestedFiles.2 rfl (by decide) (by decide)
  have hresolve : resolveInclude p.files p.file "x.cpp" true p.options.includePaths =
      some ⟨"x.cpp"⟩ := by
    rw [hp]
    exact hfound
  have hend : p.trailing = [] := by rw [hp]; exact htrailing
  obtain ⟨hmessages, hlog⟩ := Parser.parse_include (hrest.trans hitems) hend hresolve depth
  have hclean : (⟨"x.cpp"⟩ : Path).clean = ⟨"x.cpp"⟩ := by decide
  rw [hclean] at hlog
  rw [Parser.followInclude_eq, hclean] at hmessages
  have hway : (p.ready.load p.rest).way ⟨"x.cpp"⟩ =
      .inPlace (String.ofList (spaced nestedClass.tokens)) := by
    rw [hrest, hitems, hp]
    have hapart : [⟨"main.cpp"⟩, ⟨"h.h"⟩].findIdx? (Path.same ⟨"x.cpp"⟩) = none := by decide
    exact Parser.way_eq_inPlace rfl hapart (by decide)
      (FileTree.readText_of_resolve resolve_nestedFiles.2 rfl)
  rw [hway] at hmessages hlog
  have hchild : (p.ready.load p.rest).inPlaceAt ⟨"x.cpp"⟩
      (String.ofList (spaced nestedClass.tokens)) =
      Parser.start {} nestedFiles ⟨"x.cpp"⟩ (String.ofList (spaced nestedClass.tokens)) true
        [⟨"main.cpp"⟩, ⟨"h.h"⟩, ⟨"x.cpp"⟩] session.forest.trees.size #[] p.session := by
    rw [hrest, hitems, hp]
    rfl
  have hsession : p.session.forest = session.forest.plant session.cache.nextFileId := by rw [hp]; rfl
  obtain ⟨⟨m, hm, hfile⟩, hempty⟩ := parse_nestedClass hsession (by rw [hp]; exact hdiagnostics) _
    depth hchild
  have hnone : (p.ready.load p.rest).messages.size = 0 := by
    rw [hrest, hitems, hp]
    rfl
  refine ⟨m, hfile, ?_, ?_⟩
  · rw [hmessages]
    exact hm
  · rw [hlog, Parser.Way.log, hempty, hm, hnone]
    rfl

/-- The includer of the header has no message. -/
theorem parse_nestedMain (depth : Nat) {p : Parser}
    (hp : p = Parser.aloneAt {} nestedFiles ⟨"main.cpp"⟩ (including "h.h" "") [⟨"main.cpp"⟩] {}) :
    ∃ m, m.file = "x.cpp" ∧ (p.parse (depth + 2)).messages.toList = [] ∧
      p.parseLog (depth + 2) = ⟨[⟨⟨"h.h"⟩, [m], [⟨⟨"x.cpp"⟩, [m]⟩]⟩], []⟩ := by
  obtain ⟨l, l', hitems, htrailing⟩ := items_including "h.h" (by decide)
  have hfound : resolveInclude nestedFiles ⟨"main.cpp"⟩ "h.h" true [] = some ⟨"h.h"⟩ :=
    FileTree.resolveInclude_of_resolve resolve_nestedFiles.1 rfl (by decide) (by decide)
  have hrest : p.rest = (Stream.ofText (including "h.h" "")).items := by rw [hp]; rfl
  have hresolve : resolveInclude p.files p.file "h.h" true p.options.includePaths =
      some ⟨"h.h"⟩ := by
    rw [hp]
    exact hfound
  obtain ⟨hmessages, hlog⟩ := Parser.parse_include (hrest.trans hitems)
    (by rw [hp]; exact htrailing) hresolve (depth + 1)
  have hclean : (⟨"h.h"⟩ : Path).clean = ⟨"h.h"⟩ := by decide
  have hway : (p.ready.load p.rest).way ⟨"h.h"⟩ = .alone (including "x.cpp" "") := by
    rw [hrest, hitems, hp]
    have hapart : [⟨"main.cpp"⟩].findIdx? (Path.same ⟨"h.h"⟩) = none := by decide
    have htext := FileTree.readText_of_resolve resolve_nestedFiles.1 rfl
    rw [String.ofList_toList] at htext
    exact Parser.way_eq_alone rfl hapart rfl rfl (by decide) htext
  have hchild : Parser.aloneAt (p.ready.load p.rest).options (p.ready.load p.rest).files ⟨"h.h"⟩
      (including "x.cpp" "") ((p.ready.load p.rest).stack ++ [⟨"h.h"⟩])
      (p.ready.load p.rest).session = Parser.aloneAt {} nestedFiles ⟨"h.h"⟩ (including "x.cpp" "")
        [⟨"main.cpp"⟩, ⟨"h.h"⟩] p.session := by
    rw [hrest, hitems, hp]
    rfl
  obtain ⟨m, hfile, hm, hinner⟩ := parse_nestedHeader p.session (by rw [hp]; rfl) depth hchild
  have hempty : (p.ready.load p.rest).messages = #[] := by
    rw [hrest, hitems, hp]
    rfl
  rw [hclean, hway, Parser.Way.log, hinner, hm] at hlog
  rw [Parser.followInclude_eq, hclean, hway] at hmessages
  refine ⟨m, hfile, ?_, hlog⟩
  rw [hmessages, Parser.messages_take_alone, hempty]

theorem readings_nested : ∃ m, m.file = "x.cpp" ∧
    readings { files := nestedFiles } nestedInputs =
      [⟨⟨"h.h"⟩, [m], [⟨⟨"x.cpp"⟩, [m]⟩]⟩, ⟨⟨"main.cpp"⟩, [], []⟩] := by
  obtain ⟨depth, hdepth⟩ := Parser.depthLimit_eq
  obtain ⟨m, hfile, hmessages, hlog⟩ := parse_nestedMain depth rfl
  refine ⟨m, hfile, ?_⟩
  have hmain : inputReadings { files := nestedFiles } {} ⟨"main.cpp"⟩ (including "h.h" "") =
      [⟨⟨"h.h"⟩, [m], [⟨⟨"x.cpp"⟩, [m]⟩]⟩, ⟨⟨"main.cpp"⟩, [], []⟩] := by
    have hnew : isParsed ({} : Session).cache ⟨"main.cpp"⟩ = false := by decide
    rw [inputReadings, hnew, if_neg Bool.false_ne_true, hdepth]
    dsimp only
    rw [hlog, hmessages]
    rfl
  have hread : (parseInput { files := nestedFiles } {} ⟨"main.cpp"⟩
      (including "h.h" "")).cache.isBlacklisted ⟨"x.cpp"⟩ = true := by
    have hbooks := books_parseInput { files := nestedFiles } {} ⟨"main.cpp"⟩ (including "h.h" "")
    rw [hbooks.blacklist, hmain]
    have hsame : (⟨"x.cpp"⟩ : Path).same ⟨"x.cpp"⟩ = true := by decide
    simp [Log.inserts, hsame]
  have hskip : inputReadings { files := nestedFiles } (parseInput { files := nestedFiles } {}
      ⟨"main.cpp"⟩ (including "h.h" "")) ⟨"x.cpp"⟩ (String.ofList (spaced nestedClass.tokens)) =
      [] := by
    rw [inputReadings, isParsed, hread, Bool.or_true, if_pos rfl]
  have hinputs : nestedInputs.map (fun (path, source) ↦ (path.clean, source)) = nestedInputs := by
    have hmain : (⟨"main.cpp"⟩ : Path).clean = ⟨"main.cpp"⟩ := by decide
    have hinner : (⟨"x.cpp"⟩ : Path).clean = ⟨"x.cpp"⟩ := by decide
    simp [nestedInputs, hmain, hinner]
  rw [readings, hinputs, nestedInputs, readingsFrom, readingsFrom, readingsFrom, hmain, hskip]
  rfl

/-- The call in the inner file is recorded with the header, which is no input. The inner file is an
input, but what it has to say on its own does not count. -/
theorem message_nested_lost :
    ∃ r ∈ readings { files := nestedFiles } nestedInputs, ∃ m ∈ r.messages,
      (∃ input ∈ nestedInputs, m.file = input.1.clean.text) ∧
        m ∉ (extractFiles { files := nestedFiles } nestedInputs).1.messages := by
  obtain ⟨m, hfile, hreadings⟩ := readings_nested
  refine ⟨_, by rw [hreadings]; exact List.mem_cons_self, m, List.mem_singleton_self m,
    ⟨_, List.mem_cons_of_mem _ List.mem_cons_self, hfile.trans (by decide)⟩, ?_⟩
  rw [mem_messages]
  rintro ⟨input, hinput, hown, hm⟩
  rw [messagesOf_run, hreadings] at hm
  rw [isBlacklisted_run, hreadings] at hown
  rcases List.mem_cons.1 hinput with rfl | hinput
  · -- The includer was read on its own, but has no messages.
    have hapart : (⟨"h.h"⟩ : Path).same (⟨"main.cpp"⟩ : Path).clean = false := by decide
    simp [Reading.keep, hapart] at hm
  · -- The inner file was read in place.
    obtain rfl := List.mem_singleton.1 hinput
    have hsame : (⟨"x.cpp"⟩ : Path).clean.same ⟨"x.cpp"⟩ = true := by decide
    exact hown _ List.mem_cons_self _ (List.mem_singleton_self _) hsame

end Extractor

end Harvest
