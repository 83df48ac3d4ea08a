import Ehdb.Proof.Feed.Groups

/-! In a run that opens no two groups with one sanitised name and has a cursor to read when it opens
a group again, a cursor file never holds more than its own group has committed. -/

namespace Ehdb.Proof.Groups

open Feed ProofKit Proof.Group List
open L0 (Dataset Outcome)

variable {R : Type} {D : Dataset R} {cfg : GroupsConfig R} {s : GroupsWorld R}

variable {a b : String}

theorem cursorPath_inj {shard} (h : cursorPath a shard = cursorPath b shard) :
    safeName a = safeName b := by
  have h := (String.append_left_inj _).1 h
  have h := (String.append_left_inj _).1 h
  have h := (String.append_left_inj _).1 h
  exact (String.append_right_inj _).1 h

/-- The group as it was when the coordinator last stopped with it open, and where it had
started. -/
def lastStopped (name : String) : List (GroupsEvent R) → Option (Nat × GroupWorld R)
  | [] => none
  | .stopped other fromCursor last :: rest =>
    if other = name then some (fromCursor, last) else lastStopped name rest
  | .resumed .. :: rest => lastStopped name rest

def openedNames : List (GroupsEvent R) → List String
  | [] => []
  | .resumed name .. :: rest => name :: openedNames rest
  | .stopped .. :: rest => openedNames rest

/-- Whether a group may be opened after `rest`: no other name of the run has its sanitised form,
the cursor file was read, it is not above the tip, and a group that starts at the tip for want of
a cursor was not open before. -/
def mayOpen (fallback : CursorFallback) (name : String) (stored held : Option Nat) (tip : Nat)
    (rest : List (GroupsEvent R)) : Bool :=
  (openedNames rest).all (fun other => other = name || safeName other ≠ safeName name) &&
    stored = held && match stored with
    | some cursor => cursor ≤ tip
    | none => fallback = .beginning || name ∉ openedNames rest

def wellOpened (fallback : CursorFallback) : List (GroupsEvent R) → Bool
  | [] => true
  | .resumed name stored held tip _ :: rest =>
    mayOpen fallback name stored held tip rest && wellOpened fallback rest
  | .stopped .. :: rest => wellOpened fallback rest

/-- A group that was open before resumes at or below what it had committed when the coordinator
stopped, and so below every record that it had not acked. -/
def ResumesSafely (D : Dataset R) (trace : List (GroupsEvent R)) : Prop :=
  ∀ name stored held tip fromCursor rest,
    (.resumed name stored held tip fromCursor :: rest) <:+ trace →
    ∀ start last, lastStopped name rest = some (start, last) →
      fromCursor ≤ last.group.committedCursor D ∧
      ∀ r ∈ last.log, start < D.sortKey r → .acked (D.sortKey r) ∉ last.trace →
        fromCursor < D.sortKey r

variable {fallback : CursorFallback} {other : String} {held : Option Nat}
  {rest : List (GroupsEvent R)} {name : String} {tip : Nat} {stored : Option Nat}

section

variable (h : mayOpen fallback name stored held tip rest = true)

include h

theorem mayOpen_distinct
    (opened : other ∈ openedNames rest)
    (differ : other ≠ name) : safeName other ≠ safeName name := by
  simp only [mayOpen, Bool.and_eq_true, all_eq_true] at h
  simpa [differ] using h.1.1 other opened

theorem mayOpen_read : stored = held := by
  simp only [mayOpen, Bool.and_eq_true] at h
  simpa using h.1.2

theorem mayOpen_from : (∃ cursor, held = some cursor ∧ resumeFrom fallback stored tip = cursor) ∨
      (held = none ∧ (resumeFrom fallback stored tip = 0 ∨ name ∉ openedNames rest)) := by
  have read := mayOpen_read h
  subst read
  simp only [mayOpen, Bool.and_eq_true] at h
  cases stored with
  | some cursor =>
    have le : cursor ≤ tip := by simpa using h.2
    exact .inl ⟨cursor, rfl, min_eq_left le⟩
  | none =>
    refine .inr ⟨rfl, ?_⟩
    rcases Bool.or_eq_true_iff.1 h.2 with beginning | fresh
    · have : fallback = .beginning := by simpa using beginning
      exact .inl (by rw [this]; rfl)
    · exact .inr (by simpa using fresh)

end

theorem wellOpened_distinct {trace : List (GroupsEvent R)} (h : wellOpened fallback trace = true)
    (ha : a ∈ openedNames trace) (hb : b ∈ openedNames trace) (differ : a ≠ b) (shard : Nat) :
    cursorPath a shard ≠ cursorPath b shard := by
  intro same
  have safe := cursorPath_inj same
  induction trace with
  | nil => cases ha
  | cons e rest ih =>
    cases e with
    | stopped => exact ih h ha hb
    | resumed name stored held tip fromCursor =>
      obtain ⟨may, tail⟩ := Bool.and_eq_true_iff.1 h
      rcases mem_cons.1 ha with rfl | olda
      · rcases mem_cons.1 hb with rfl | oldb
        · exact differ rfl
        · exact mayOpen_distinct may oldb (Ne.symm differ) safe.symm
      · rcases mem_cons.1 hb with rfl | oldb
        · exact mayOpen_distinct may olda differ safe
        · exact ih tail olda oldb

def fileOf (cfg : GroupsConfig R) (s : GroupsWorld R) (name : String) : Option FileBody :=
  s.files (cursorPath name cfg.shard)

/-- An open group keeps its invariant, and its file is not ahead of what it has committed. -/
structure OpenOk (D : Dataset R) (cfg : GroupsConfig R) (s : GroupsWorld R) (name : String)
    (og : OpenGroup R) : Prop where
  group : GroupInv D cfg.subjectOf og.fromCursor (og.over s.log)
  below : Below cfg.shard (fileOf cfg s name) (og.group.committedCursor D)
  shard : ∀ store, og.cursor = some store → store.shard = cfg.shard
  opened : name ∈ openedNames s.trace

/-- A stopped group's file is not ahead of what it had committed. -/
structure StoppedOk (D : Dataset R) (cfg : GroupsConfig R) (s : GroupsWorld R) (name : String)
    (start : Nat) (last : GroupWorld R) : Prop where
  group : GroupInv D cfg.subjectOf start last
  below : Below cfg.shard (fileOf cfg s name) (last.group.committedCursor D)
  opened : name ∈ openedNames s.trace

/-- What a call relies on between two of its steps. -/
def CallOk (D : Dataset R) (cfg : GroupsConfig R) (s : GroupsWorld R) (i : Nat) : Stage → Prop
  | .free => True
  | .opening name => s.groupsLock = some i ∧ s.groups.find? name = none
  | .storing name x stage =>
    ∃ og c, s.groups.find? name = some og ∧ x ≤ og.group.committedCursor D ∧
      s.cell cfg name = some c ∧ CellOk c i x stage

/-- The invariant of the groups over stops and resumes. -/
structure GroupsInv (D : Dataset R) (cfg : GroupsConfig R) (s : GroupsWorld R) : Prop where
  ascending : s.log.Pairwise fun a b => D.sortKey a < D.sortKey b
  opens : ∀ name og, s.groups.find? name = some og → OpenOk D cfg s name og
  closed : ∀ name start last, s.groups.find? name = none →
    lastStopped name s.trace = some (start, last) → StoppedOk D cfg s name start last
  safe : ResumesSafely D s.trace

variable {s' : GroupsWorld R} {i : Nat}

variable {og : OpenGroup R} {j : Nat}

section Operate

variable {name : String} {op : GroupOp R}

def operated (D : Dataset R) (cfg : GroupsConfig R) (log : List R) (op : GroupOp R)
    (og : OpenGroup R) : OpenGroup R :=
  let w := (og.over log).step D cfg.subjectOf op
  { og with group := w.group, history := w.trace }

theorem find?_operate (other : String) : (s.operate D cfg name op).groups.find? other =
      if other = name then (s.groups.find? other).map (operated D cfg s.log op)
      else s.groups.find? other := OrderedMap.find?_adjust ..

theorem over_operated (quiet : ∀ record, op ≠ .append record) (og : OpenGroup R) :
    (operated D cfg s.log op og).over s.log = (og.over s.log).step D cfg.subjectOf op := by
  have log : ((og.over s.log).step D cfg.subjectOf op).log = s.log := by
    cases op with
    | append record => exact absurd rfl (quiet record)
    | pollAssign | pollFails =>
      simp only [GroupWorld.step, GroupWorld.polled]
      split <;> rfl
    | ack | expireNow =>
      simp only [GroupWorld.step]
      split <;> rfl
  exact congrArg (GroupWorld.mk · _ _) log.symm

theorem OpenOk.operated (quiet : ∀ record, op ≠ .append record) (ok : OpenOk D cfg s name og) :
    OpenOk D cfg s name (operated D cfg s.log op og) ∧
      og.group.committedCursor D ≤ (Groups.operated D cfg s.log op og).group.committedCursor D := by
  have step := ok.group.step_cases op
  have grows := ok.group.committed_step step
  refine ⟨{ ok with group := ?_, below := ?_ }, grows⟩
  · rw [over_operated quiet]
    exact ok.group.step step
  · exact fun cursor load => (ok.below cursor load).trans grows

theorem cell_operate (other : String) :
    (s.operate D cfg name op).cell cfg other = s.cell cfg other := by
  simp only [GroupsWorld.cell, find?_operate]
  split
  · cases s.groups.find? other <;> rfl
  · rfl

theorem CallOk.operate (quiet : ∀ record, op ≠ .append record) (inv : GroupsInv D cfg s)
    {stage} (ok : CallOk D cfg s j stage) : CallOk D cfg (s.operate D cfg name op) j stage := by
  cases stage with
  | free => trivial
  | opening other =>
    refine ⟨ok.1, ?_⟩
    rw [find?_operate, ok.2]
    split <;> rfl
  | storing other x stage =>
    obtain ⟨og, c, found, le, cell, cellOk⟩ := ok
    by_cases same : other = name
    · refine ⟨Groups.operated D cfg s.log op og, c, ?_, ?_, (cell_operate other).trans cell, cellOk⟩
      · rw [find?_operate, if_pos same, found]
        rfl
      · exact le.trans ((inv.opens other og found).operated quiet).2
    · refine ⟨og, c, ?_, le, (cell_operate other).trans cell, cellOk⟩
      rw [find?_operate, if_neg same, found]

theorem GroupsInv.operate (quiet : ∀ record, op ≠ .append record) (inv : GroupsInv D cfg s) :
    GroupsInv D cfg (s.operate D cfg name op) := by
  refine { inv with opens := ?_, closed := ?_ }
  · intro other og found
    rw [find?_operate] at found
    split at found
    · obtain ⟨old, before, rfl⟩ := Option.map_eq_some_iff.1 found
      have ok := ((inv.opens other old before).operated quiet).1
      exact { ok with }
    · have ok := inv.opens other og found
      exact { ok with }
  · intro other start last absent stopped
    have before : s.groups.find? other = none := by
      rw [find?_operate] at absent
      split at absent
      · simpa using absent
      · exact absent
    have ok := inv.closed other start last before stopped
    exact { ok with }

end Operate

section Store

variable {name : String} {c c' : CursorCell} {i x : Nat} {stage stage' : WriteStage}

theorem cell_eq_some : s.cell cfg name = some c ↔
    ∃ og store, s.groups.find? name = some og ∧ og.cursor = some store ∧
      c = ⟨store, fileOf cfg s name, s.tmps (cursorPath name cfg.shard), []⟩ := by
  constructor
  · intro h
    obtain ⟨og, found, h⟩ := Option.bind_eq_some_iff.1 h
    obtain ⟨store, cursor, rfl⟩ := Option.map_eq_some_iff.1 h
    exact ⟨og, store, found, cursor, rfl⟩
  · rintro ⟨og, store, found, cursor, rfl⟩
    simp [GroupsWorld.cell, found, cursor, fileOf]

theorem find?_setCell (other : String) : (s.setCell cfg name c).groups.find? other =
      if other = name then
        (s.groups.find? other).map fun og => { og with cursor := some c.store }
      else s.groups.find? other := OrderedMap.find?_adjust ..

theorem GroupsInv.apart (inv : GroupsInv D cfg s) (well : wellOpened cfg.fallback s.trace = true)
    (found : s.groups.find? name = some og) (opened : other ∈ openedNames s.trace)
    (differ : other ≠ name) : cursorPath other cfg.shard ≠ cursorPath name cfg.shard :=
  wellOpened_distinct well opened (inv.opens name og found).opened differ cfg.shard

theorem fileOf_setCell_ne (apart : cursorPath other cfg.shard ≠ cursorPath name cfg.shard) :
    fileOf cfg (s.setCell cfg name c) other = fileOf cfg s other := by
  simp only [fileOf, GroupsWorld.setCell, if_neg apart]

theorem fileOf_setCell_self : fileOf cfg (s.setCell cfg name c) name = c.file := by
  simp only [fileOf, GroupsWorld.setCell, if_true]

theorem cell_setCell_self (cell : s.cell cfg name = some c) :
    (s.setCell cfg name c').cell cfg name = some { c' with trace := [] } := by
  obtain ⟨og, store, found, cursor, rfl⟩ := cell_eq_some.1 cell
  refine cell_eq_some.2 ⟨{ og with cursor := some c'.store }, c'.store, ?_, rfl, ?_⟩
  · rw [find?_setCell, if_pos rfl, found]
    rfl
  · rw [fileOf_setCell_self]
    simp [GroupsWorld.setCell]

theorem CellOk.trace {trace} (ok : CellOk c i x stage) :
    CellOk { c with trace := trace } i x stage := ⟨ok.locked, ok.own⟩

theorem CallOk.ofWrite (found : s.groups.find? name = some og) (le : x ≤ og.group.committedCursor D)
    (cell : s.cell cfg name = some c) (ok : CellOk c i x stage) :
    CallOk D cfg s i (.ofWrite name x stage) := by
  cases stage with
  | after => trivial
  | before | inside | written => exact ⟨og, c, found, le, cell, ok⟩

theorem CallOk.cellOk (going : stage ≠ .after) (cell : s.cell cfg name = some c)
    (ok : CallOk D cfg s i (.ofWrite name x stage)) : CellOk c i x stage ∧
      ∃ og, s.groups.find? name = some og ∧ x ≤ og.group.committedCursor D := by
  have storing : CallOk D cfg s i (.storing name x stage) := by
    cases stage with
    | after => exact absurd rfl going
    | before | inside | written => exact ok
  obtain ⟨og, c', found, le, cell', cellOk⟩ := storing
  cases cell.symm.trans cell'
  exact ⟨cellOk, og, found, le⟩

theorem CallOk.setCell (inv : GroupsInv D cfg s) (well : wellOpened cfg.fallback s.trace = true)
    (cell : s.cell cfg name = some c) (self : CellOk c i x stage)
    (h : WriteStep i x c stage c' stage') {stage''} (differ : j ≠ i)
    (ok : CallOk D cfg s j stage'') : CallOk D cfg (s.setCell cfg name c') j stage'' := by
  obtain ⟨og, store, found, cursor, eq⟩ := cell_eq_some.1 cell
  cases stage'' with
  | free => trivial
  | opening other =>
    refine ⟨ok.1, ?_⟩
    rw [find?_setCell, ok.2]
    split <;> rfl
  | storing other y stage'' =>
    obtain ⟨og', d, found', le, cell', cellOk⟩ := ok
    by_cases same : other = name
    · subst same
      cases found.symm.trans found'
      cases cell.symm.trans cell'
      refine ⟨{ og with cursor := some c'.store }, _, ?_, le, cell_setCell_self cell,
        (self.others h differ cellOk).trace⟩
      rw [find?_setCell, if_pos rfl, found]
      rfl
    · have apart := inv.apart well found (inv.opens other og' found').opened same
      refine ⟨og', d, by rw [find?_setCell, if_neg same, found'], le, ?_, cellOk⟩
      simp only [GroupsWorld.cell, find?_setCell, if_neg same]
      simp only [GroupsWorld.setCell, if_neg apart]
      exact cell'

theorem GroupsInv.store (inv : GroupsInv D cfg s) (well : wellOpened cfg.fallback s.trace = true)
    (own : CallOk D cfg s i (.ofWrite name x stage)) (cell : s.cell cfg name = some c)
    (h : WriteStep i x c stage c' stage') : GroupsInv D cfg (s.setCell cfg name c') ∧
      CallOk D cfg (s.setCell cfg name c') i (.ofWrite name x stage') ∧
      ∀ {j} {_ : GroupsRequest} {other}, j ≠ i → CallOk D cfg s j other →
        CallOk D cfg (s.setCell cfg name c') j other := by
  obtain ⟨self, og, found, le⟩ := own.cellOk h.going cell
  obtain ⟨og', store, found', cursor, eq⟩ := cell_eq_some.1 cell
  cases found.symm.trans found'
  have ok := inv.opens name og found
  have at_shard : c.store.shard = cfg.shard := by
    rw [eq]
    exact ok.shard store cursor
  have below : Below cfg.shard c'.file (og.group.committedCursor D) := by
    refine self.below h at_shard le ?_
    rw [eq]
    exact ok.below
  have set : (s.setCell cfg name c').groups.find? name =
      some { og with cursor := some c'.store } := by
    rw [find?_setCell, if_pos rfl, found]
    rfl
  refine ⟨{ inv with opens := ?_, closed := ?_ },
    .ofWrite set le (cell_setCell_self cell) (self.step h).trace,
    fun differ ok' => ok'.setCell inv well cell self h differ⟩
  · intro other og' found'
    by_cases same : other = name
    · subst same
      cases set.symm.trans found'
      refine { ok with below := ?_, shard := ?_ }
      · rw [fileOf_setCell_self]
        exact below
      · intro store' eq'
        cases eq'
        exact h.shard.trans at_shard
    · rw [find?_setCell, if_neg same] at found'
      have ok' := inv.opens other og' found'
      refine { ok' with below := ?_ }
      rw [fileOf_setCell_ne (inv.apart well found ok'.opened same)]
      exact ok'.below
  · intro other start last absent stopped
    have differ : other ≠ name := by
      rintro rfl
      rw [set] at absent
      cases absent
    rw [find?_setCell, if_neg differ] at absent
    have ok' := inv.closed other start last absent stopped
    refine { ok' with below := ?_ }
    rw [fileOf_setCell_ne (inv.apart well found ok'.opened differ)]
    exact ok'.below

end Store

section Opening

variable {name : String} {i : Nat} {hasStore : Bool} {stored : Option Nat} {tip : Nat}

theorem find?_opened (other : String) : (s.opened cfg name hasStore stored tip).groups.find? other =
      if other = name then
        some
          { group := .new cfg.shard cfg.ackWaitTicks (resumeFrom cfg.fallback stored tip)
            cursor := if hasStore then some (.opened cfg.shard false) else none
            fromCursor := resumeFrom cfg.fallback stored tip
            history := [] }
      else s.groups.find? other := OrderedMap.find?_insert ..

theorem OpenOk.new (ascending : s.log.Pairwise fun a b => D.sortKey a < D.sortKey b)
    (may : mayOpen cfg.fallback name stored (CursorStore.load cfg.shard (fileOf cfg s name)) tip
      s.trace = true)
    (found : (s.opened cfg name hasStore stored tip).groups.find? name = some og) :
    OpenOk D cfg (s.opened cfg name hasStore stored tip) name og := by
  rw [find?_opened, if_pos rfl] at found
  cases found
  refine ⟨.new ascending .., ?_, ?_, mem_cons_self ..⟩
  · intro cursor load
    rcases mayOpen_from may with ⟨held, eq, start⟩ | ⟨eq, -⟩
    · cases eq.symm.trans load
      exact start.ge
    · cases eq.symm.trans load
  · intro store eq
    split at eq
    · cases eq
      rfl
    · cases eq

theorem ResumesSafely.opened (inv : GroupsInv D cfg s) (absent : s.groups.find? name = none)
    (may : mayOpen cfg.fallback name stored (CursorStore.load cfg.shard (fileOf cfg s name)) tip
      s.trace = true) : ResumesSafely D (s.opened cfg name hasStore stored tip).trace := by
  intro other stored' held tip' fromCursor rest suffix start last stopped
  rcases suffix_cons_iff.1 suffix with new | old
  · cases new
    have ok := inv.closed _ start last absent stopped
    have le : resumeFrom cfg.fallback stored tip ≤ last.group.committedCursor D := by
      rcases mayOpen_from may with ⟨cursor, load, start⟩ | ⟨-, zero | fresh⟩
      · exact start ▸ ok.below cursor load
      · exact zero ▸ Nat.zero_le _
      · exact absurd ok.opened fresh
    exact ⟨le, fun r mem above unacked => le.trans_lt (ok.group.committed_lt mem above unacked)⟩
  · exact inv.safe other stored' held tip' fromCursor rest old start last stopped

theorem GroupsInv.opened (inv : GroupsInv D cfg s) (own : CallOk D cfg s i (.opening name))
    (well : wellOpened cfg.fallback (s.opened cfg name hasStore stored tip).trace = true) :
    GroupsInv D cfg (s.opened cfg name hasStore stored tip) ∧ ∀ {j stage}, j ≠ i →
      CallOk D cfg s j stage → CallOk D cfg (s.opened cfg name hasStore stored tip) j stage := by
  obtain ⟨lock, absent⟩ := own
  have may := (Bool.and_eq_true_iff.1 well).1
  refine ⟨⟨inv.ascending, ?_, ?_, .opened inv absent may⟩, ?_⟩
  · intro other og found
    by_cases same : other = name
    · subst same
      exact .new inv.ascending may found
    · rw [find?_opened, if_neg same] at found
      have ok := inv.opens other og found
      exact { ok with opened := .tail _ ok.opened }
  · intro other start last gone stopped
    by_cases same : other = name
    · rw [find?_opened, if_pos same] at gone
      cases gone
    · rw [find?_opened, if_neg same] at gone
      have ok := inv.closed other start last gone stopped
      exact { ok with opened := .tail _ ok.opened }
  · intro j stage differ ok
    cases stage with
    | free => trivial
    | opening other =>
      -- the lock has one holder
      exact absurd (Option.some.inj (ok.1.symm.trans lock)) differ
    | storing other x stage =>
      obtain ⟨og, c, found, le, cell, cellOk⟩ := ok
      have other_ne : other ≠ name := by
        rintro rfl
        cases absent.symm.trans found
      refine ⟨og, c, by rw [find?_opened, if_neg other_ne, found], le, ?_, cellOk⟩
      simp only [GroupsWorld.cell, find?_opened, if_neg other_ne]
      exact cell

end Opening

theorem CallOk.congr {stage} (ok : CallOk D cfg s i stage)
    (groups : s'.groups = s.groups) (lock : s'.groupsLock = s.groupsLock)
    (files : s'.files = s.files) (tmps : s'.tmps = s.tmps) : CallOk D cfg s' i stage := by
  cases stage with
  | free => trivial
  | opening name => exact ⟨lock.trans ok.1, groups ▸ ok.2⟩
  | storing name x stage =>
    have cell : s'.cell cfg name = s.cell cfg name := by
      simp only [GroupsWorld.cell, groups, files, tmps]
    obtain ⟨og, c, found, le, held, cellOk⟩ := ok
    exact ⟨og, c, groups ▸ found, le, cell.trans held, cellOk⟩

theorem GroupsInv.append (inv : GroupsInv D cfg s) {record}
    (top : ∀ r ∈ s.log, D.sortKey r < D.sortKey record) :
    GroupsInv D cfg { s with log := s.log ++ [record], tip := tip } where
  ascending := by
    refine pairwise_append.2 ⟨inv.ascending, pairwise_singleton _ _, ?_⟩
    intro a mem b single
    rw [mem_singleton.1 single]
    exact top a mem
  opens name og found := by
    have ok := inv.opens name og found
    exact ⟨ok.group.append top, ok.below, ok.shard, ok.opened⟩
  closed name start last absent stopped := by
    have ok := inv.closed name start last absent stopped
    exact ⟨ok.group, ok.below, ok.opened⟩
  safe := inv.safe

theorem GroupsInv.congr (inv : GroupsInv D cfg s) (log : s'.log = s.log)
    (groups : s'.groups = s.groups) (files : s'.files = s.files) (trace : s'.trace = s.trace) :
    GroupsInv D cfg s' where
  ascending := log ▸ inv.ascending
  opens name og found := by
    have ok := inv.opens name og (groups ▸ found)
    refine ⟨log ▸ ok.group, ?_, ok.shard, trace ▸ ok.opened⟩
    rw [fileOf, files]
    exact ok.below
  closed name start last absent stopped := by
    have ok := inv.closed name start last (groups ▸ absent) (trace ▸ stopped)
    refine ⟨ok.group, ?_, trace ▸ ok.opened⟩
    rw [fileOf, files]
    exact ok.below
  safe := trace ▸ inv.safe

section Release

variable {k : Nat}

def unlocked (k : Nat) (store : CursorStore) : CursorStore :=
  if store.writeLock = some k then { store with writeLock := none } else store

theorem find?_release (name : String) : (s.release k).groups.find? name =
      (s.groups.find? name).map fun og => { og with cursor := og.cursor.map (unlocked k) } :=
  OrderedMap.find?_mapValues ..

theorem CallOk.release {stage} (differ : j ≠ k) (ok : CallOk D cfg s j stage) :
    CallOk D cfg (s.release k) j stage := by
  cases stage with
  | free => trivial
  | opening name =>
    refine ⟨?_, by rw [find?_release, ok.2]; rfl⟩
    have other : s.groupsLock ≠ some k := by
      rw [ok.1]
      exact fun same => differ (Option.some.inj same)
    exact (if_neg other).trans ok.1
  | storing name x stage =>
    obtain ⟨og, c, found, le, cell, cellOk⟩ := ok
    obtain ⟨og', store, found', cursor, rfl⟩ := cell_eq_some.1 cell
    cases found.symm.trans found'
    have after : (s.release k).groups.find? name =
        some { og with cursor := some (unlocked k store) } := by
      rw [find?_release, found, Option.map_some, cursor, Option.map_some]
    refine ⟨_, _, after, le, cell_eq_some.2 ⟨_, unlocked k store, after, rfl, rfl⟩, ?_⟩
    refine ⟨fun locked => ?_, fun written body tmp => ?_⟩
    · have held := cellOk.locked locked
      have other : store.writeLock ≠ some k := by
        rw [held]
        exact fun same => differ (Option.some.inj same)
      exact (congrArg CursorStore.writeLock (if_neg other)).trans held
    · rw [cellOk.own written body tmp]
      simp only [CursorCell.body, unlocked]
      split <;> rfl

theorem GroupsInv.release (inv : GroupsInv D cfg s) : GroupsInv D cfg (s.release k) where
  ascending := inv.ascending
  opens name og found := by
    rw [find?_release] at found
    obtain ⟨og, before, rfl⟩ := Option.map_eq_some_iff.1 found
    have ok := inv.opens name og before
    refine ⟨ok.group, ok.below, fun store eq => ?_, ok.opened⟩
    obtain ⟨store, cursor, rfl⟩ := Option.map_eq_some_iff.1 eq
    have := ok.shard store cursor
    unfold unlocked
    split <;> exact this
  closed name start last absent stopped := by
    have before : s.groups.find? name = none := by
      rw [find?_release] at absent
      simpa using absent
    have ok := inv.closed name start last before stopped
    exact ⟨ok.group, ok.below, ok.opened⟩
  safe := inv.safe

end Release

section Restart

def stoppedEvent (log : List R) (entry : String × OpenGroup R) : GroupsEvent R :=
  .stopped entry.1 entry.2.fromCursor (entry.2.over log)

theorem restarted_trace :
    s.restarted.trace = s.groups.entries.map (stoppedEvent s.log) ++ s.trace := rfl

theorem lastStopped_append (name : String) (log : List R) (entries : List (String × OpenGroup R))
    (trace : List (GroupsEvent R)) : lastStopped name (entries.map (stoppedEvent log) ++ trace) =
      match entries.find? fun e => e.1 = name with
      | some e => some (e.2.fromCursor, e.2.over log)
      | none => lastStopped name trace := by
  induction entries with
  | nil => rfl
  | cons e rest ih =>
    by_cases same : e.1 = name
    · simp [stoppedEvent, lastStopped, same]
    · simpa [stoppedEvent, lastStopped, same] using ih

theorem lastStopped_restarted (name : String) : lastStopped name s.restarted.trace =
      match s.groups.find? name with
      | some og => some (og.fromCursor, og.over s.log)
      | none => lastStopped name s.trace := by
  rw [restarted_trace, lastStopped_append]
  unfold OrderedMap.find?
  cases s.groups.entries.find? fun e => e.1 = name <;> rfl

theorem openedNames_restarted : openedNames s.restarted.trace = openedNames s.trace := by
  rw [restarted_trace]
  induction s.groups.entries with
  | nil => rfl
  | cons e rest ih => exact ih

theorem wellOpened_restarted :
    wellOpened fallback s.restarted.trace = wellOpened fallback s.trace := by
  rw [restarted_trace]
  induction s.groups.entries with
  | nil => rfl
  | cons e rest ih => exact ih

theorem ResumesSafely.restarted (safe : ResumesSafely D s.trace) :
    ResumesSafely D s.restarted.trace := by
  rw [restarted_trace]
  induction s.groups.entries with
  | nil => exact safe
  | cons e rest ih =>
    intro name stored held tip fromCursor tail suffix
    rcases suffix_cons_iff.1 suffix with new | old
    · cases new
    · exact ih name stored held tip fromCursor tail old

theorem GroupsInv.restart (inv : GroupsInv D cfg s) : GroupsInv D cfg s.restarted where
  ascending := inv.ascending
  opens _ _ found := by cases found
  closed name start last _ stopped := by
    rw [lastStopped_restarted] at stopped
    cases found : s.groups.find? name with
    | some og =>
      rw [found] at stopped
      cases stopped
      have ok := inv.opens name og found
      exact ⟨ok.group, ok.below, openedNames_restarted.symm ▸ ok.opened⟩
    | none =>
      rw [found] at stopped
      have ok := inv.closed name start last found stopped
      exact ⟨ok.group, ok.below, openedNames_restarted.symm ▸ ok.opened⟩
  safe := inv.safe.restarted

end Restart

theorem CallOk.before {i x store}
    (found : s.groups.find? name = some og) (cursor : og.cursor = some store)
    (le : x ≤ og.group.committedCursor D) : CallOk D cfg s i (.storing name x .before) :=
  ⟨og, _, found, le, cell_eq_some.2 ⟨og, store, found, cursor, rfl⟩, nofun, nofun⟩

variable {stage stage' : Stage}

theorem GroupsInv.act (inv : GroupsInv D cfg s) (own : CallOk D cfg s i stage)
    (h : GroupsStep D cfg i s stage s' stage') (well : wellOpened cfg.fallback s'.trace = true) :
    GroupsInv D cfg s' ∧ CallOk D cfg s' i stage' ∧
      ∀ {j} {_ : GroupsRequest} {other}, j ≠ i → CallOk D cfg s j other →
        CallOk D cfg s' j other := by
  cases h with
  | look => exact ⟨inv, own, fun _ ok => ok⟩
  | count => exact ⟨inv.congr rfl rfl rfl rfl, trivial, fun _ ok => ok.congr rfl rfl rfl rfl⟩
  | enter free absent =>
    refine ⟨inv.congr rfl rfl rfl rfl, ⟨rfl, absent⟩, fun {_ _ other} _ ok => ?_⟩
    cases other with
    | free => trivial
    | opening => cases free.symm.trans ok.1
    | storing => exact ok
  | insert =>
    obtain ⟨after, others⟩ := inv.opened own well
    exact ⟨after, trivial, others⟩
  | operate quiet => exact ⟨inv.operate quiet, trivial, fun _ ok => ok.operate quiet inv⟩
  | @acked name og store sortKey found cursor =>
    have after : (s.operate D cfg name (.ack sortKey)).groups.find? name =
        some (operated D cfg s.log (.ack sortKey) og) := by
      rw [find?_operate, if_pos rfl, found]
      rfl
    have quiet : ∀ record : R, GroupOp.ack sortKey ≠ .append record := fun _ => nofun
    refine ⟨inv.operate quiet, .before after cursor ?_, fun _ ok => ok.operate quiet inv⟩
    rw [operated]
    simp only [GroupWorld.step]
    split <;> simp_all [OpenGroup.over]
  | began found cursor => exact ⟨inv, .before found cursor le_rfl, fun _ ok => ok⟩
  | store cell h => exact inv.store well own cell h

variable {log : List R}

theorem GroupsInv.new (ascending : log.Pairwise fun a b => D.sortKey a < D.sortKey b) (tip : Nat)
    (files tmps : String → Option FileBody) : GroupsInv D cfg (.new log tip files tmps) where
  ascending := ascending
  opens _ _ found := by cases found
  closed _ _ _ _ stopped := by cases stopped
  safe _ _ _ _ _ _ suffix := absurd (suffix_nil.1 suffix) (cons_ne_nil _ _)

variable {e : GroupsWorldEvent R}

theorem GroupsInv.happens (inv : GroupsInv D cfg s) (e : GroupsWorldEvent R) :
    GroupsInv D cfg (s.happens D cfg e) ∧ ∀ {j stage}, (e = .restart → stage = .free) →
      CallOk D cfg s j stage → CallOk D cfg (s.happens D cfg e) j stage := by
  cases e with
  | append record =>
    simp only [GroupsWorld.happens]
    split
    · rename_i top
      exact ⟨inv.append (by simpa using top), fun _ ok => ok.congr rfl rfl rfl rfl⟩
    · exact ⟨inv, fun _ ok => ok⟩
  | advance | tick => exact ⟨inv.congr rfl rfl rfl rfl, fun _ ok => ok.congr rfl rfl rfl rfl⟩
  | orphaned name sortKey =>
    have quiet : ∀ record : R, GroupOp.expireNow sortKey ≠ .append record := fun _ => nofun
    exact ⟨inv.operate quiet, fun _ ok => ok.operate quiet inv⟩
  | restart => exact ⟨inv.restart, fun free _ => by rw [free rfl]; trivial⟩

theorem GroupsStep.wellOpened
    (h : GroupsStep D cfg i s stage s' stage') (well : wellOpened cfg.fallback s'.trace = true) :
    Groups.wellOpened cfg.fallback s.trace = true := by
  cases h with
  | insert => exact (Bool.and_eq_true_iff.1 well).2
  | look | count | enter | operate | acked | began | store => exact well

theorem happens_wellOpened (well : wellOpened cfg.fallback (s.happens D cfg e).trace = true) :
    wellOpened cfg.fallback s.trace = true := by
  cases e with
  | append record =>
    simp only [GroupsWorld.happens] at well
    split at well <;> exact well
  | advance | tick | orphaned => exact well
  | restart => exact wellOpened_restarted ▸ well

theorem keeps_groups : (groupsProtocol D cfg).Keeps (groupsService D cfg)
    (fun s => wellOpened cfg.fallback s.trace = true) (fun s _ => GroupsInv D cfg s)
    (fun s i _ stage => CallOk D cfg s i stage) where
  call _ inv := ⟨inv, trivial⟩
  act step well := ⟨step.wellOpened well, fun _ inv own => inv.act own step well⟩
  drop well := ⟨well, fun inv _ => ⟨inv.release, fun differ ok => ok.release differ⟩⟩
  world e well := by
    refine ⟨happens_wellOpened well, fun inv => ?_⟩
    obtain ⟨after, others⟩ := inv.happens e
    refine ⟨after, fun ended ok => others (fun restart => ?_) ok⟩
    -- only calls that had returned are left
    obtain ⟨a, done⟩ := ended (restart ▸ rfl)
    exact done

end Ehdb.Proof.Groups
