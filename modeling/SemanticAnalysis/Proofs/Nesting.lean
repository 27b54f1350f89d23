import SemanticAnalysis.Memo.Script
import SemanticAnalysis.Proofs.Analysis.Growth
/-!
Computations inside computations. The computation of a cell may ask for any cells, itself included, each with a
computation of its own, and so on to any depth. It may look at what it is told before it goes on, and every one of these
computations may fail.

All calls of a run are noted in a journal. Whatever the computations are, a computation runs only for a cell about which
nothing is known, a value that was found stays, and a call leaves the same cells in progress as it found, also when it
fails. What carries the induction is that a cell that is known or in progress when some work begins is in the same state
at every call inside this work.
-/
namespace SemanticAnalysis

/-- Work on cells: that of one computation, or a run as a whole. -/
inductive Procedure (κ ε α : Type) where
  | finish (result : Except ε α)
  | look (key : κ) (next : Memo α → Procedure κ ε α)
  | ask (key : κ) (inner : Procedure κ ε α) (next : Except ε (Option α) → Procedure κ ε α)

namespace Procedure
variable {κ ε α : Type} [DecidableEq κ]

def run : Procedure κ ε α → ExceptT ε (StateM (Cells κ α)) α
  | finish result => fun cells => (result, cells)
  | look key next => fun cells => (next (cells.state key)).run cells
  | ask key inner next => fun cells =>
    let called := (Cells.cell key).compute inner.run cells
    (next called.1).run called.2

/-- A call that has returned. -/
structure Call (κ ε α : Type) where
  key : κ
  before : Cells κ α
  ran : Option (Except ε α)
  reply : Except ε (Option α)
  after : Cells κ α

structure Journal (κ ε α : Type) where
  cells : Cells κ α
  calls : List (Call κ ε α) := []
  result : Option (Except ε α) := none

namespace Journal

def cell (key : κ) : Cell (Journal κ ε α) α :=
  ⟨fun j => j.cells.state key, fun m j => { j with cells := j.cells.insert key m }⟩

def noting (work : ExceptT ε (StateM (Journal κ ε α)) α) : ExceptT ε (StateM (Journal κ ε α)) α := fun j =>
  let ended := work j
  (ended.1, { ended.2 with result := some ended.1 })

def call (key : κ) (work : ExceptT ε (StateM (Journal κ ε α)) α) (j : Journal κ ε α) :
    Except ε (Option α) × Journal κ ε α :=
  let called := (cell key).compute (noting work) { j with result := none }
  let entry : Call κ ε α := ⟨key, j.cells, called.2.result, called.1, called.2.cells⟩
  (called.1, ⟨called.2.cells, called.2.calls ++ [entry], j.result⟩)

end Journal

def follow : Procedure κ ε α → ExceptT ε (StateM (Journal κ ε α)) α
  | finish result => fun j => (result, j)
  | look key next => fun j => (next (j.cells.state key)).follow j
  | ask key inner next => fun j =>
    let called := j.call key inner.follow
    (next called.1).follow called.2

/-- What every call does. -/
structure Call.Lawful (c : Call κ ε α) : Prop where
  runs : c.ran ≠ none ↔ c.before.state c.key = .unknown
  running : c.before.state c.key = .inProgress → c.reply = .ok none ∧ c.after = c.before
  known : ∀ v, c.before.state c.key = .computed v → c.reply = .ok (some v) ∧ c.after = c.before
  success : ∀ v, c.ran = some (.ok v) → c.reply = .ok (some v) ∧ c.after.state c.key = .computed v
  failure : ∀ e, c.ran = some (.error e) → c.reply = .error e ∧ c.after.state c.key = .unknown
  settles : c.before.Settles c.after

/-- What a call that returned means for one that returned later. The later one may be the call inside whose computation
the first one was made. -/
def Call.Precedes (c d : Call κ ε α) : Prop :=
  ∀ v, c.reply = .ok (some v) →
    d.after.state c.key = .computed v ∧ (d.key = c.key → d.ran = none ∧ d.reply = .ok (some v))

/-- What some work did to the cells, and the calls that were made in it. -/
structure Traced (start finish : Cells κ α) (calls : List (Call κ ε α)) : Prop where
  settles : start.Settles finish
  begun : ∀ c ∈ calls, ∀ k, start.state k ≠ .unknown → c.before.state k = start.state k
  lawful : ∀ c ∈ calls, c.Lawful
  kept : ∀ c ∈ calls, ∀ v, c.reply = .ok (some v) → finish.state c.key = .computed v
  ordered : calls.Pairwise Call.Precedes

theorem traced_none (cells : Cells κ α) : Traced cells cells ([] : List (Call κ ε α)) :=
  ⟨Cells.settles_refl cells, by simp, by simp, by simp, .nil⟩

theorem settled_state {start finish : Cells κ α} (settles : start.Settles finish) {k : κ}
    (known : start.state k ≠ .unknown) : finish.state k = start.state k := by
  cases state : start.state k with
  | unknown => exact absurd state known
  | inProgress => exact (settles.running k).mpr state
  | computed v => exact settles.computed k v state

theorem traced_append {a b c : Cells κ α} {xs ys : List (Call κ ε α)} (first : Traced a b xs) (second : Traced b c ys) :
    Traced a c (xs ++ ys) := by
  constructor
  · exact Cells.settles_trans first.settles second.settles
  · intro call member k known
    rcases List.mem_append.mp member with early | late
    · exact first.begun call early k known
    · have same := settled_state first.settles known
      rw [second.begun call late k (same ▸ known), same]
  · intro call member
    exact (List.mem_append.mp member).elim (first.lawful call) (second.lawful call)
  · intro call member v reply
    rcases List.mem_append.mp member with early | late
    · exact second.settles.computed _ v (first.kept call early v reply)
    · exact second.kept call late v reply
  · refine List.pairwise_append.mpr ⟨first.ordered, second.ordered, ?_⟩
    intro early member late member' v reply
    have between := first.kept early member v reply
    have found : late.before.state early.key = .computed v := by
      rw [second.begun late member' _ (by simp [between]), between]
    have lawful := second.lawful late member'
    refine ⟨lawful.settles.computed _ v found, fun same => ?_⟩
    rw [← same] at found
    refine ⟨?_, (lawful.known v found).1⟩
    by_contra ran
    rw [lawful.runs.mp ran] at found
    cases found

theorem traced_idle {cells : Cells κ α} {key : κ} {reply : Except ε (Option α)}
    (running : cells.state key = .inProgress → reply = .ok none)
    (known : ∀ v, cells.state key = .computed v → reply = .ok (some v)) (found : cells.state key ≠ .unknown) :
    Traced cells cells [⟨key, cells, none, reply, cells⟩] := by
  have lawful : Call.Lawful ⟨key, cells, none, reply, cells⟩ :=
    ⟨by simp [found], fun state => ⟨running state, rfl⟩, fun v state => ⟨known v state, rfl⟩, by simp, by simp,
      Cells.settles_refl cells⟩
  refine ⟨Cells.settles_refl cells, ?_, ?_, ?_, List.pairwise_singleton ..⟩
  · rintro call member k -
    rw [List.mem_singleton.mp member]
  · intro call member
    rw [List.mem_singleton.mp member]
    exact lawful
  · intro call member v told
    rw [List.mem_singleton.mp member] at told ⊢
    cases state : cells.state key with
    | unknown => exact absurd state found
    | inProgress => simp [running state] at told
    | computed w => simpa [known w state] using told

def outcome : Except ε α → Memo α
  | .ok v => .computed v
  | .error _ => .unknown

/-- A call whose computation runs. While it does the cell is in progress, so no call inside is told a value of it. -/
theorem traced_through {cells inside : Cells κ α} {key : κ} {calls : List (Call κ ε α)} (result : Except ε α)
    (unknown : cells.state key = .unknown) (inner : Traced (cells.insert key .inProgress) inside calls) :
    Traced cells (inside.insert key (outcome result))
      (calls ++ [⟨key, cells, some result, some <$> result, inside.insert key (outcome result)⟩]) := by
  have started : Cells.state (cells.insert key .inProgress) key = .inProgress := by
    rw [Cells.state_insert, if_pos rfl]
  have settles : cells.Settles (inside.insert key (outcome result)) :=
    Cells.settles_through unknown inner.settles (by cases result <;> simp [outcome])
  have written : Cells.state (inside.insert key (outcome result)) key = outcome result := by
    rw [Cells.state_insert, if_pos rfl]
  have lawful : Call.Lawful ⟨key, cells, some result, some <$> result, inside.insert key (outcome result)⟩ := by
    refine ⟨by simp [unknown], by simp [unknown], by simp [unknown], ?_, ?_, settles⟩
    · rintro v same
      cases same
      exact ⟨rfl, written⟩
    · rintro e same
      cases same
      exact ⟨rfl, written⟩
  have other : ∀ c ∈ calls, ∀ v, c.reply = .ok (some v) → c.key ≠ key := by
    rintro c member v told rfl
    have busy := inner.begun c member c.key (by simp [started])
    rw [started] at busy
    rw [((inner.lawful c member).running busy).1] at told
    cases told
  have kept : ∀ c ∈ calls, ∀ v, c.reply = .ok (some v) →
      Cells.state (inside.insert key (outcome result)) c.key = .computed v := by
    intro c member v told
    rw [Cells.state_insert, if_neg (other c member v told)]
    exact inner.kept c member v told
  constructor
  · exact settles
  · intro c member k known
    rcases List.mem_append.mp member with inside | last
    · have different : k ≠ key := by
        rintro rfl
        exact known unknown
      have same : Cells.state (cells.insert key .inProgress) k = cells.state k := by
        rw [Cells.state_insert, if_neg different]
      rw [inner.begun c inside k (same ▸ known), same]
    · rw [List.mem_singleton.mp last]
  · exact each_snoc inner.lawful lawful
  · intro c member v told
    rcases List.mem_append.mp member with inside | last
    · exact kept c inside v told
    · rw [List.mem_singleton.mp last] at told ⊢
      cases result with
      | error e => cases told
      | ok w =>
        cases told
        exact written
  · refine List.pairwise_append.mpr ⟨inner.ordered, List.pairwise_singleton .., ?_⟩
    intro c member d last v told
    rw [List.mem_singleton.mp last]
    exact ⟨kept c member v told, fun same => absurd same.symm (other c member v told)⟩

def Journal.Continues (j k : Journal κ ε α) : Prop :=
  k.result = j.result ∧ ∃ more, k.calls = j.calls ++ more ∧ Traced j.cells k.cells more

theorem call_continues (key : κ) {work : ExceptT ε (StateM (Journal κ ε α)) α}
    (works : ∀ j, Journal.Continues j (work j).2) (j : Journal κ ε α) : Journal.Continues j (j.call key work).2 := by
  unfold Journal.call Cell.compute
  have read : (Journal.cell key).read { j with result := none } = j.cells.state key := rfl
  rw [read]
  cases state : j.cells.state key with
  | computed v =>
    exact ⟨rfl, _, rfl, traced_idle (by simp [state]) (by simp [state]) (by simp [state])⟩
  | inProgress =>
    exact ⟨rfl, _, rfl, traced_idle (by simp) (by simp [state]) (by simp [state])⟩
  | unknown =>
    have inner := works ((Journal.cell key).write .inProgress { j with result := none })
    dsimp only [Journal.noting]
    rcases ran : work ((Journal.cell key).write .inProgress { j with result := none }) with ⟨result, inside⟩
    rw [ran] at inner
    obtain ⟨_, more, extended, traced⟩ := inner
    have whole := traced_through result state traced
    cases result with
    | ok v =>
      refine ⟨rfl, _, ?_, whole⟩
      rw [← List.append_assoc]
      exact congrArg (· ++ _) extended
    | error e =>
      refine ⟨rfl, _, ?_, whole⟩
      rw [← List.append_assoc]
      exact congrArg (· ++ _) extended

theorem follow_continues (p : Procedure κ ε α) (j : Journal κ ε α) : Journal.Continues j (p.follow j).2 := by
  induction p generalizing j with
  | finish result => exact ⟨rfl, [], by simp [follow], traced_none j.cells⟩
  | look key next ih => exact ih _ j
  | ask key inner next ihInner ihNext =>
    obtain ⟨same, first, extended, traced⟩ := call_continues key ihInner j
    obtain ⟨same', others, extended', traced'⟩ := ihNext (j.call key inner.follow).1 (j.call key inner.follow).2
    refine ⟨same'.trans same, first ++ others, ?_, traced_append traced traced'⟩
    rw [← List.append_assoc, ← extended]
    exact extended'

theorem call_plain (key : κ) {work : ExceptT ε (StateM (Journal κ ε α)) α} {plain : ExceptT ε (StateM (Cells κ α)) α}
    (same : ∀ j, plain j.cells = ((work j).1, (work j).2.cells)) (j : Journal κ ε α) :
    (Cells.cell key).compute plain j.cells = ((j.call key work).1, (j.call key work).2.cells) := by
  unfold Journal.call Cell.compute
  have read : (Journal.cell key).read { j with result := none } = j.cells.state key := rfl
  have read' : (Cells.cell key).read j.cells = j.cells.state key := rfl
  rw [read, read']
  cases state : j.cells.state key with
  | computed v => rfl
  | inProgress => rfl
  | unknown =>
    have inner := same ((Journal.cell key).write .inProgress { j with result := none })
    dsimp only [Journal.noting]
    rcases ran : work ((Journal.cell key).write .inProgress { j with result := none }) with ⟨result, inside⟩
    rw [ran] at inner
    have plainly : plain ((Cells.cell key).write .inProgress j.cells) = (result, inside.cells) := inner
    rw [plainly]
    cases result <;> rfl

theorem follow_plain (p : Procedure κ ε α) (j : Journal κ ε α) :
    p.run j.cells = ((p.follow j).1, (p.follow j).2.cells) := by
  induction p generalizing j with
  | finish result => rfl
  | look key next ih => exact ih _ j
  | ask key inner next ihInner ihNext =>
    have called : (ask key inner next).run j.cells
        = (next (j.call key inner.follow).1).run (j.call key inner.follow).2.cells := by
      rw [run]
      dsimp only
      rw [call_plain key ihInner j]
    exact called.trans (ihNext _ _)

end Procedure

namespace Script
open Procedure (Journal Call Traced)

mutual

/-- The requests of a script as a procedure that goes on whatever it is told. -/
def work {κ ε α : Type} : Script κ ε α → Procedure κ ε α → Procedure κ ε α
  | .look key, next => .look key (fun _ => next)
  | .compute key inner result, next => .ask key (workAll inner (.finish result)) (fun _ => next)

def workAll {κ ε α : Type} : List (Script κ ε α) → Procedure κ ε α → Procedure κ ε α
  | [], next => next
  | request :: rest, next => request.work (workAll rest next)

end

mutual

/-- What the calls were told, in the order in which they returned. -/
def Reply.told {ε α : Type} : Reply ε α → List (Except ε (Option α))
  | .state _ => []
  | .value none result => [result]
  | .value (some inner) result => toldAll inner ++ [result]

def Reply.toldAll {ε α : Type} : List (Reply ε α) → List (Except ε (Option α))
  | [] => []
  | reply :: rest => reply.told ++ toldAll rest

end

theorem told_append {ε α : Type} (xs ys : List (Reply ε α)) :
    Reply.toldAll (xs ++ ys) = Reply.toldAll xs ++ Reply.toldAll ys := by
  induction xs with
  | nil => simp [Reply.toldAll]
  | cons x xs ih => simp [Reply.toldAll, ih]

/-- A journal goes on as a script does. -/
structure Noted {κ ε α : Type} (run after : Run κ ε α) (j k : Journal κ ε α) : Prop where
  cells : after.cells = k.cells
  told : ∃ calls, k.calls = j.calls ++ calls ∧
    Reply.toldAll after.replies = Reply.toldAll run.replies ++ calls.map Call.reply

theorem noted_trans {κ ε α : Type} {a b c : Run κ ε α} {j k l : Journal κ ε α} (first : Noted a b j k)
    (second : Noted b c k l) : Noted a c j l := by
  obtain ⟨calls, extended, told⟩ := first.told
  obtain ⟨others, extended', told'⟩ := second.told
  exact ⟨second.cells, calls ++ others, by simp [extended', extended], by simp [told', told]⟩

variable {κ ε α : Type} [DecidableEq κ]

theorem compute_noted (key : κ) {inner : List (Script κ ε α)} {result : Except ε α}
    {procedure : ExceptT ε (StateM (Journal κ ε α)) α}
    (works : ∀ run j, run.cells = j.cells → ∃ k, procedure j = (result, k) ∧ Noted run (performAll inner run) j k)
    {run : Run κ ε α} {j : Journal κ ε α} (same : run.cells = j.cells) :
    Noted run (perform (.compute key inner result) run) j (j.call key procedure).2 := by
  unfold perform Journal.call Cell.compute
  have read : (Journal.cell key).read { j with result := none } = j.cells.state key := rfl
  have read' : (Run.cell key).read run = j.cells.state key := by rw [← same]; rfl
  rw [read, read', same]
  cases state : j.cells.state key with
  | computed v => exact ⟨same, _, rfl, by simp [told_append, Reply.toldAll, Reply.told]⟩
  | inProgress => exact ⟨same, _, rfl, by simp [told_append, Reply.toldAll, Reply.told]⟩
  | unknown =>
    let started : Run κ ε α := { cells := run.cells.insert key .inProgress }
    have begun : started.cells = ((Journal.cell key).write .inProgress { j with result := none }).cells := by
      rw [← same]
      rfl
    obtain ⟨k, ran, cells, calls, extended, told⟩ := works started _ begun
    dsimp only [Journal.noting]
    rw [ran]
    have replies : Reply.toldAll (performAll inner started).replies = calls.map Call.reply := by
      simpa [started, Reply.toldAll] using told
    -- the call is noted after those that were made in its computation
    let entry : Call κ ε α := ⟨key, j.cells, some result, some <$> result, k.cells.insert key (Procedure.outcome result)⟩
    refine ⟨?_, calls ++ [entry], ?_, ?_⟩
    · cases result <;> exact congrArg (fun c => Table.insert c key _) cells
    · rw [← List.append_assoc]
      cases result <;> exact congrArg (· ++ _) extended
    · cases result <;> simpa [told_append, Reply.toldAll, Reply.told, Run.cell, entry] using replies

mutual

theorem perform_noted (s : Script κ ε α) (next : Procedure κ ε α) (run : Run κ ε α) (j : Journal κ ε α)
    (same : run.cells = j.cells) : ∃ k, (s.work next).follow j = next.follow k ∧ Noted run (s.perform run) j k := by
  cases s with
  | look key =>
    rw [work, perform]
    exact ⟨j, rfl, same, [], by simp, by simp [Run.reply, told_append, Reply.toldAll, Reply.told]⟩
  | compute key inner result =>
    rw [work]
    exact ⟨_, rfl, compute_noted key (fun run j same => perform_all_noted inner (.finish result) run j same) same⟩

theorem perform_all_noted (requests : List (Script κ ε α)) (next : Procedure κ ε α) (run : Run κ ε α)
    (j : Journal κ ε α) (same : run.cells = j.cells) :
    ∃ k, (workAll requests next).follow j = next.follow k ∧ Noted run (performAll requests run) j k := by
  cases requests with
  | nil =>
    rw [workAll, performAll]
    exact ⟨j, rfl, same, [], by simp, by simp⟩
  | cons request rest =>
    rw [workAll, performAll]
    obtain ⟨k, first, noted⟩ := perform_noted request (workAll rest next) run j same
    obtain ⟨l, others, noted'⟩ := perform_all_noted rest next (request.perform run) k noted.cells
    exact ⟨l, first.trans others, noted_trans noted noted'⟩

end

/-- A script is a procedure: it leaves the same cells, and what its calls are told is what the journal has. So all that
is known of the calls of procedures holds of those of scripts. -/
theorem scripts_are_traced (requests : List (Script κ ε α)) (result : Except ε α) (cells : Cells κ α) :
    let followed := (workAll requests (.finish result)).follow { cells }
    let ran := performAll requests { cells }
    followed.1 = result ∧ ran.cells = followed.2.cells ∧
      Reply.toldAll ran.replies = followed.2.calls.map Call.reply ∧ Traced cells ran.cells followed.2.calls := by
  obtain ⟨k, ran, same, calls, noted, told⟩ := perform_all_noted requests (.finish result) { cells } { cells } rfl
  obtain ⟨_, more, extended, traced⟩ := Procedure.follow_continues (workAll requests (.finish result)) { cells }
  rw [ran] at extended traced ⊢
  rw [List.nil_append] at extended noted
  refine ⟨rfl, same, ?_, ?_⟩
  · rw [told, ← noted]
    rfl
  · rw [same]
    exact extended ▸ traced

end Script

/-- Cells in any states, and any run on them. Every call in it, at whatever depth, does what a call should; a value that
a call was told stays in its cell, and every later call of the cell is told it without a computation; and the run leaves
the same cells in progress as it found. -/
theorem cells_are_computed_once {κ ε α : Type} [DecidableEq κ] (p : Procedure κ ε α) (cells : Cells κ α) :
    let followed := p.follow { cells }
    p.run cells = (followed.1, followed.2.cells) ∧ Procedure.Traced cells followed.2.cells followed.2.calls := by
  obtain ⟨_, more, extended, traced⟩ := Procedure.follow_continues p { cells }
  rw [List.nil_append] at extended
  refine ⟨Procedure.follow_plain p { cells }, ?_⟩
  rw [extended]
  exact traced

end SemanticAnalysis
