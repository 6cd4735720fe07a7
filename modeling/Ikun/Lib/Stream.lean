import Mathlib.Algebra.Ring.Nat
import Mathlib.Data.List.Infix
import Mathlib.Logic.Relation
import Mathlib.Order.WellFounded
import Mathlib.Tactic.Common

/-!
# A host and its device stream

A host program launches operations on a stream, which executes them in order while the host goes on.
Host and stream share a memory. An event that is recorded on the stream is completed when the stream
gets to it, and the host can wait for that, or for the whole stream. An operation, of the stream or
of the host, consists of pieces that are executed in any order.

`Ordered` is a check on the program text: every operation of the host is independent of whatever the
events allow to be still in flight. For such a program the interleaving does not matter
(`Ordered.outcome`): no two pieces in flight conflict, every execution ends, and all of them end in
the memory that executing each operation at its launch gives.
-/

namespace DeviceStream

/-- Pieces of work, of which some are independent of each other. -/
class Independence (Piece : Type) where
  Independent : Piece → Piece → Prop
  symm {p q : Piece} : Independent p q → Independent q p

open Independence

/-- Pieces of work on a memory. Two that are independent can be executed in either order. -/
class Work (Piece Memory : Type) [Independence Piece] where
  exec : Piece → Memory → Memory
  commute {p q : Piece} (m : Memory) : Independent p q → exec p (exec q m) = exec q (exec p m)

/-- An instruction of the host. `check` waits for the stream and raises if the memory is not `ok`. -/
inductive Instr (Piece Memory Event : Type)
  | launch (op : List Piece)
  | record (event : Event)
  | synchronize (event : Event)
  | run (op : List Piece)
  | check (ok : Memory → Bool) (error : String)
  | raise (error : String)

/-- What waits on the stream. -/
inductive Item (Piece Event : Type)
  | operation (pieces : List Piece)
  | event (event : Event)

/-- The rest of the host program, the stream and the memory. -/
structure Config (Piece Memory Event : Type) where
  program : List (Instr Piece Memory Event)
  stream : List (Item Piece Event)
  memory : Memory

variable {Piece Memory Event : Type}

/-- The pieces on the stream. -/
def Item.pieces : Item Piece Event → List Piece
  | .operation pieces => pieces
  | .event _ => []

/-! ## What is in flight -/

section after

variable [DecidableEq Event]

/-- Is this the record of the event? -/
def Item.records (event : Event) : Item Piece Event → Bool
  | .operation _ => false
  | .event e => e = event

/-- What may still be in flight when an event is completed. -/
def after (event : Event) : List (Item Piece Event) → List (Item Piece Event)
  | [] => []
  | item :: stream =>
    if stream.any (Item.records event) then after event stream
    else if item.records event then stream else item :: stream

theorem any_records_iff {event : Event} {stream : List (Item Piece Event)} :
    stream.any (Item.records event) = true ↔ .event event ∈ stream := by
  rw [List.any_eq_true]
  constructor
  · intro h
    obtain ⟨item, hitem, hrec⟩ := h
    cases item with
    | operation pieces => exact absurd hrec Bool.false_ne_true
    | event e =>
      obtain rfl := of_decide_eq_true hrec
      exact hitem
  · intro h
    exact ⟨_, h, decide_eq_true rfl⟩

theorem after_of_notMem {event : Event} {stream : List (Item Piece Event)}
    (h : .event event ∉ stream) : after event stream = stream := by
  cases stream with
  | nil => rfl
  | cons item stream =>
    have hnot : ¬ (stream.any (Item.records event) = true) := fun hany =>
      h (List.mem_cons_of_mem _ (any_records_iff.mp hany))
    have hhead : ¬ (item.records event = true) := by
      intro hrec
      have hany : [item].any (Item.records event) = true := by
        rw [List.any_cons, hrec]
        rfl
      exact h (List.mem_cons.mpr (.inl (List.mem_singleton.mp (any_records_iff.mp hany))))
    rw [after, if_neg hnot, if_neg hhead]

/-- What follows the last record of the event. -/
theorem after_append {event : Event} {front back : List (Item Piece Event)}
    (h : .event event ∉ back) : after event (front ++ .event event :: back) = back := by
  have hback : ¬ (back.any (Item.records event) = true) := fun hany => h (any_records_iff.mp hany)
  induction front with
  | nil =>
    have hrec : (Item.event event : Item Piece Event).records event = true := decide_eq_true rfl
    rw [List.nil_append, after, if_neg hback, if_pos hrec]
  | cons item front ih =>
    have hany : (front ++ .event event :: back).any (Item.records event) = true :=
      any_records_iff.mpr (List.mem_append_right _ List.mem_cons_self)
    rw [List.cons_append, after, if_pos hany, ih]

theorem mem_of_mem_after {event : Event} {item : Item Piece Event}
    {stream : List (Item Piece Event)} (h : item ∈ after event stream) : item ∈ stream := by
  induction stream with
  | nil => exact h
  | cons first stream ih =>
    rw [after] at h
    split at h
    · exact List.mem_cons_of_mem _ (ih h)
    · split at h
      · exact List.mem_cons_of_mem _ h
      · exact h

end after

/-- A stream that has executed a part of what was launched. -/
inductive Remains : List (Item Piece Event) → List (Item Piece Event) → Prop
  | refl (launched) : Remains launched launched
  | part {pieces pieces' launched} : pieces.Sublist pieces' →
      Remains (.operation pieces :: launched) (.operation pieces' :: launched)
  | drop {stream launched} (item) : Remains stream launched → Remains stream (item :: launched)

namespace Remains

variable {stream launched : List (Item Piece Event)} {item : Item Piece Event}

theorem append (h : Remains stream launched) (item : Item Piece Event) :
    Remains (stream ++ [item]) (launched ++ [item]) := by
  induction h with
  | refl => exact .refl _
  | part hsub => exact .part hsub
  | drop first _ ih => exact .drop first ih

theorem tail (h : Remains (item :: stream) launched) : Remains stream launched := by
  generalize hlist : item :: stream = list at h
  induction h with
  | refl =>
    subst hlist
    exact .drop _ (.refl _)
  | part _ =>
    obtain ⟨-, rfl⟩ := List.cons.inj hlist
    exact .drop _ (.refl _)
  | drop first _ ih => exact .drop first (ih hlist)

theorem sublist {pieces pieces' : List Piece} (hsub : pieces'.Sublist pieces)
    (h : Remains (.operation pieces :: stream) launched) :
    Remains (.operation pieces' :: stream) launched := by
  generalize hlist : Item.operation pieces :: stream = list at h
  induction h with
  | refl =>
    subst hlist
    exact .part hsub
  | part hpart =>
    obtain ⟨heq, rfl⟩ := List.cons.inj hlist
    obtain rfl := Item.operation.inj heq
    exact .part (hsub.trans hpart)
  | drop first _ ih => exact .drop first (ih hlist)

/-- A piece that is in flight has been launched. -/
theorem mem_pieces (h : Remains stream launched) (hitem : item ∈ stream) :
    ∃ item' ∈ launched, item.pieces.Sublist item'.pieces := by
  induction h with
  | refl => exact ⟨item, hitem, List.Sublist.refl _⟩
  | part hsub =>
    cases List.mem_cons.mp hitem with
    | inl heq =>
      subst heq
      exact ⟨_, List.mem_cons_self, hsub⟩
    | inr hmem => exact ⟨item, List.mem_cons_of_mem _ hmem, List.Sublist.refl _⟩
  | drop first _ ih =>
    obtain ⟨item', hmem, hsub⟩ := ih hitem
    exact ⟨item', List.mem_cons_of_mem _ hmem, hsub⟩

/-- If the event is completed, only what follows its last record is in flight. -/
theorem of_completed [DecidableEq Event] {event : Event} (h : Remains stream launched)
    (hevent : .event event ∉ stream) : Remains stream (after event launched) := by
  induction h with
  | refl =>
    rw [after_of_notMem hevent]
    exact .refl _
  | @part pieces pieces' launched hsub =>
    have hnot : Item.event event ∉ Item.operation pieces' :: launched := by
      intro hmem
      cases List.mem_cons.mp hmem with
      | inl heq => exact absurd heq (by simp)
      | inr hmem => exact hevent (List.mem_cons_of_mem _ hmem)
    rw [after_of_notMem hnot]
    exact .part hsub
  | drop first hrem ih =>
    rw [after]
    split
    · exact ih hevent
    · split
      · exact hrem
      · exact .drop first hrem

end Remains

/-! ## Executions -/

variable [Independence Piece] [Work Piece Memory]

open Work

/-- The host or the stream takes a step. -/
inductive Step : Config Piece Memory Event → Config Piece Memory Event → Prop
  | launch {op rest stream m} :
      Step ⟨.launch op :: rest, stream, m⟩ ⟨rest, stream ++ [.operation op], m⟩
  | record {event rest stream m} :
      Step ⟨.record event :: rest, stream, m⟩ ⟨rest, stream ++ [.event event], m⟩
  | synchronize {event rest stream m} : .event event ∉ stream →
      Step ⟨.synchronize event :: rest, stream, m⟩ ⟨rest, stream, m⟩
  | piece {before p after rest stream m} :
      Step ⟨.run (before ++ p :: after) :: rest, stream, m⟩
        ⟨.run (before ++ after) :: rest, stream, exec p m⟩
  | done {rest stream m} : Step ⟨.run [] :: rest, stream, m⟩ ⟨rest, stream, m⟩
  | passed {ok error rest m} : ok m = true →
      Step ⟨.check ok error :: rest, [], m⟩ ⟨rest, [], m⟩
  | failed {ok error rest m} : ok m = false →
      Step ⟨.check ok error :: rest, [], m⟩ ⟨[.raise error], [], m⟩
  | streamPiece {before p after program stream m} :
      Step ⟨program, .operation (before ++ p :: after) :: stream, m⟩
        ⟨program, .operation (before ++ after) :: stream, exec p m⟩
  | streamDone {program stream m} :
      Step ⟨program, .operation [] :: stream, m⟩ ⟨program, stream, m⟩
  | completed {event program stream m} :
      Step ⟨program, .event event :: stream, m⟩ ⟨program, stream, m⟩

/-- The executions of a program that finds an idle stream. -/
def Reaches (program : List (Instr Piece Memory Event)) (m : Memory)
    (c : Config Piece Memory Event) : Prop :=
  Relation.ReflTransGen Step ⟨program, [], m⟩ c

/-- The pieces that the host is about to execute. -/
def Config.onHost (c : Config Piece Memory Event) : List Piece :=
  match c.program with
  | .run op :: _ => op
  | _ => []

/-- No piece of the host conflicts with one that the stream still has to execute. -/
def Config.RaceFree (c : Config Piece Memory Event) : Prop :=
  ∀ p ∈ c.onHost, ∀ item ∈ c.stream, ∀ q ∈ item.pieces, Independent p q

/-- What holds of a program in every execution, if it delivers the memory `m'`. -/
structure Delivers (program : List (Instr Piece Memory Event)) (m m' : Memory) : Prop where
  raceFree : ∀ c, Reaches program m c → c.RaceFree
  ends : Acc (fun c' c => Step c c') (⟨program, [], m⟩ : Config Piece Memory Event)
  outcome : ∀ c, Reaches program m c → (¬ ∃ c', Step c c') → c = ⟨[], [], m'⟩

/-! ## Execution without a stream -/

def runAll (pieces : List Piece) (m : Memory) : Memory := pieces.foldl (fun m p => exec p m) m

/-- Executes what waits on a stream. -/
def drain (stream : List (Item Piece Event)) (m : Memory) : Memory :=
  stream.foldl (fun m item => runAll item.pieces m) m

/-- Every operation is executed when it is launched. -/
def sequential : List (Instr Piece Memory Event) → Memory → Except String Memory
  | [], m => .ok m
  | .launch op :: rest, m => sequential rest (runAll op m)
  | .run op :: rest, m => sequential rest (runAll op m)
  | .record _ :: rest, m => sequential rest m
  | .synchronize _ :: rest, m => sequential rest m
  | .check ok error :: rest, m => if ok m then sequential rest m else .error error
  | .raise error :: _, _ => .error error

section runAll

variable {p : Piece} {before after pieces : List Piece} {m : Memory}

theorem runAll_append : runAll (before ++ after) m = runAll after (runAll before m) :=
  List.foldl_append

theorem runAll_commute (h : ∀ q ∈ pieces, Independent p q) :
    runAll pieces (exec p m) = exec p (runAll pieces m) := by
  induction pieces generalizing m with
  | nil => rfl
  | cons q pieces ih =>
    have hswap : exec q (exec p m) = exec p (exec q m) :=
      (commute m (h q List.mem_cons_self)).symm
    show runAll pieces (exec q (exec p m)) = _
    rw [hswap]
    exact ih fun q hq => h q (List.mem_cons_of_mem _ hq)

/-- Any piece of an operation can be executed first. -/
theorem runAll_pull (h : (before ++ p :: after).Pairwise Independent) :
    runAll (before ++ after) (exec p m) = runAll (before ++ p :: after) m := by
  have hbefore : ∀ q ∈ before, Independent p q := fun q hq =>
    symm ((List.pairwise_append.mp h).2.2 q hq p List.mem_cons_self)
  rw [runAll_append, runAll_commute hbefore, runAll_append]
  rfl

theorem drain_append {front back : List (Item Piece Event)} :
    drain (front ++ back) m = drain back (drain front m) :=
  List.foldl_append

theorem drain_commute {stream : List (Item Piece Event)}
    (h : ∀ item ∈ stream, ∀ q ∈ item.pieces, Independent p q) :
    drain stream (exec p m) = exec p (drain stream m) := by
  induction stream generalizing m with
  | nil => rfl
  | cons item stream ih =>
    show drain stream (runAll item.pieces (exec p m)) = _
    rw [runAll_commute (h item List.mem_cons_self)]
    exact ih fun item hitem => h item (List.mem_cons_of_mem _ hitem)

end runAll

/-! ## The check -/

section Ordered

variable [DecidableEq Event]

/-- From the operations that may be in flight, the program does nothing that conflicts with them, and
it waits for the stream before it ends. -/
def Ordered : List (Item Piece Event) → List (Instr Piece Memory Event) → Prop
  | stream, [] => stream = []
  | stream, .launch op :: rest =>
    op.Pairwise Independent ∧ Ordered (stream ++ [.operation op]) rest
  | stream, .record event :: rest => Ordered (stream ++ [.event event]) rest
  | stream, .synchronize event :: rest => Ordered (after event stream) rest
  | stream, .run op :: rest =>
    op.Pairwise Independent ∧
      (∀ p ∈ op, ∀ item ∈ stream, ∀ q ∈ item.pieces, Independent p q) ∧ Ordered stream rest
  | _, .check _ _ :: rest => Ordered [] rest
  | _, .raise _ :: _ => True

end Ordered

/-! ## Every execution is as good as the sequential one -/

section Ordered

variable [DecidableEq Event] {launched : List (Item Piece Event)}
  {c c' : Config Piece Memory Event} {program : List (Instr Piece Memory Event)}
  {m m' : Memory} {r : Except String Memory}

/-- The rest of the run: the check goes on from what may be in flight, and executing the stream and then
the rest of the program gives the result. -/
structure Follows (launched : List (Item Piece Event)) (c : Config Piece Memory Event)
    (r : Except String Memory) : Prop where
  ordered : Ordered launched c.program
  pairwise : ∀ item ∈ launched, item.pieces.Pairwise Independent
  remains : Remains c.stream launched
  result : sequential c.program (drain c.stream c.memory) = r

theorem Follows.raceFree (h : Follows launched c r) : c.RaceFree := by
  intro p hp item hitem q hq
  unfold Config.onHost at hp
  split at hp
  · next op rest hprogram =>
    have hord := h.ordered
    rw [hprogram] at hord
    obtain ⟨item', hitem', hsub⟩ := h.remains.mem_pieces hitem
    exact hord.2.1 p hp item' hitem' q (hsub.subset hq)
  · exact absurd hp List.not_mem_nil

omit [DecidableEq Event] in
theorem pairwise_append (h : ∀ item ∈ launched, item.pieces.Pairwise Independent)
    (last : Item Piece Event) (hlast : last.pieces.Pairwise Independent) :
    ∀ item ∈ launched ++ [last], item.pieces.Pairwise Independent := by
  intro item hmem
  cases List.mem_append.mp hmem with
  | inl hmem => exact h item hmem
  | inr hmem =>
    rw [List.mem_singleton.mp hmem]
    exact hlast

/-- What one step keeps. -/
theorem Follows.step (h : Follows launched c r) (hstep : Step c c') :
    ∃ launched', Follows launched' c' r := by
  obtain ⟨hord, hpair, hrem, hres⟩ := h
  cases hstep with
  | launch =>
    refine ⟨_, hord.2, pairwise_append hpair _ hord.1, hrem.append _, ?_⟩
    rw [drain_append]
    exact hres
  | record =>
    refine ⟨_, hord, pairwise_append hpair _ List.Pairwise.nil, hrem.append _, ?_⟩
    rw [drain_append]
    exact hres
  | synchronize hevent =>
    exact ⟨_, hord, fun item hitem => hpair item (mem_of_mem_after hitem),
      hrem.of_completed hevent, hres⟩
  | @piece front p back rest stream m =>
    have hmem : p ∈ front ++ p :: back := List.mem_append_right _ List.mem_cons_self
    have hsub : (front ++ back).Sublist (front ++ p :: back) :=
      (List.sublist_cons_self p back).append_left front
    have hstream : ∀ item ∈ stream, ∀ q ∈ item.pieces, Independent p q := by
      intro item hitem q hq
      obtain ⟨item', hitem', hsub⟩ := hrem.mem_pieces hitem
      exact hord.2.1 p hmem item' hitem' q (hsub.subset hq)
    refine ⟨launched, ⟨hord.1.sublist hsub, fun q hq => hord.2.1 q (hsub.subset hq), hord.2.2⟩,
      hpair, hrem, ?_⟩
    show sequential rest (runAll (front ++ back) (drain stream (exec p m))) = r
    rw [drain_commute hstream, runAll_pull hord.1]
    exact hres
  | done => exact ⟨launched, hord.2.2, hpair, hrem, hres⟩
  | passed hok =>
    refine ⟨[], hord, fun item hitem => absurd hitem List.not_mem_nil, .refl _, ?_⟩
    exact (if_pos hok).symm.trans hres
  | failed hok =>
    refine ⟨[], trivial, fun item hitem => absurd hitem List.not_mem_nil, .refl _, ?_⟩
    exact (if_neg (ne_true_of_eq_false hok)).symm.trans hres
  | @streamPiece front p back program stream m =>
    obtain ⟨item, hitem, hsub⟩ := hrem.mem_pieces List.mem_cons_self
    refine ⟨launched, hord, hpair,
      hrem.sublist ((List.sublist_cons_self p back).append_left front), ?_⟩
    show sequential program (drain stream (runAll (front ++ back) (exec p m))) = r
    rw [runAll_pull ((hpair item hitem).sublist hsub)]
    exact hres
  | streamDone => exact ⟨launched, hord, hpair, hrem.tail, hres⟩
  | completed => exact ⟨launched, hord, hpair, hrem.tail, hres⟩

/-- What a whole run keeps. -/
theorem Follows.reaches (h : Ordered [] program) (hr : Reaches program m c) :
    ∃ launched, Follows launched c (sequential program m) := by
  induction hr with
  | refl =>
    exact ⟨[], h, fun item hitem => absurd hitem List.not_mem_nil, .refl _, rfl⟩
  | tail _ hstep ih =>
    obtain ⟨launched, hfollows⟩ := ih
    exact hfollows.step hstep

end Ordered

/-! ## Every execution ends -/

/-- The steps that an instruction needs at most, its share of the stream included. -/
def Instr.weight : Instr Piece Memory Event → ℕ
  | .launch op => op.length + 2
  | .record _ => 2
  | .synchronize _ => 1
  | .run op => op.length + 1
  | .check _ _ => 2
  | .raise _ => 1

def Item.weight (item : Item Piece Event) : ℕ := item.pieces.length + 1

def Config.weight (c : Config Piece Memory Event) : ℕ :=
  (c.program.map Instr.weight).sum + (c.stream.map Item.weight).sum

theorem Step.weight_lt {c c' : Config Piece Memory Event} (h : Step c c') : c'.weight < c.weight := by
  cases h <;>
    simp only [Config.weight, Instr.weight, Item.weight, Item.pieces, List.map_cons, List.map_nil,
      List.map_append, List.sum_cons, List.sum_nil, List.sum_append, List.length_append,
      List.length_cons, List.length_nil] <;>
    omega

theorem acc_step (c : Config Piece Memory Event) : Acc (fun c' c => Step c c') c :=
  Subrelation.accessible (fun h => h.weight_lt) ((measure Config.weight).wf.apply c)

/-- A stream with something on it goes on. -/
theorem step_of_stream {program : List (Instr Piece Memory Event)} {item : Item Piece Event}
    {stream : List (Item Piece Event)} {m : Memory} :
    ∃ c', Step ⟨program, item :: stream, m⟩ c' := by
  cases item with
  | event e => exact ⟨_, .completed⟩
  | operation pieces =>
    cases pieces with
    | nil => exact ⟨_, .streamDone⟩
    | cons p pieces =>
      have hpiece : Step ⟨program, .operation ([] ++ p :: pieces) :: stream, m⟩ _ := .streamPiece
      exact ⟨_, hpiece⟩

/-- The host goes on at the latest when the stream is idle, unless it has raised. -/
theorem step_of_host {instr : Instr Piece Memory Event} {rest : List (Instr Piece Memory Event)}
    {m : Memory} (h : ∀ error, instr ≠ .raise error) : ∃ c', Step ⟨instr :: rest, [], m⟩ c' := by
  cases instr with
  | launch op => exact ⟨_, .launch⟩
  | record event => exact ⟨_, .record⟩
  | synchronize event => exact ⟨_, .synchronize List.not_mem_nil⟩
  | run op =>
    cases op with
    | nil => exact ⟨_, .done⟩
    | cons p op =>
      have hpiece : Step ⟨.run ([] ++ p :: op) :: rest, [], m⟩ _ := .piece
      exact ⟨_, hpiece⟩
  | check ok error =>
    cases hok : ok m with
    | true => exact ⟨_, .passed hok⟩
    | false => exact ⟨_, .failed hok⟩
  | raise error => exact absurd rfl (h error)

/-- A program that passes the check and raises nothing if executed without a stream. -/
theorem Ordered.delivers [DecidableEq Event] {program : List (Instr Piece Memory Event)}
    {m m' : Memory} (h : Ordered [] program) (hseq : sequential program m = .ok m') :
    Delivers program m m' where
  raceFree c hr := by
    obtain ⟨launched, hfollows⟩ := Follows.reaches h hr
    exact hfollows.raceFree
  ends := acc_step _
  outcome := by
    intro c hr hstuck
    obtain ⟨launched, hord, -, hrem, hres⟩ := Follows.reaches h hr
    obtain ⟨rest, stream, m''⟩ := c
    rw [hseq] at hres
    cases stream with
    | cons item stream => exact absurd step_of_stream hstuck
    | nil =>
      cases rest with
      | nil =>
        obtain rfl := Except.ok.inj hres
        rfl
      | cons instr rest =>
        refine absurd (step_of_host fun error heq => ?_) hstuck
        subst heq
        exact absurd hres (by simp [sequential])

end DeviceStream
