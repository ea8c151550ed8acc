import MitDistributed.Raft.Steps

namespace MitDistributed.Raft

open Transition

/-!
# Raft — what the `Persister` holds

`Node.bytes` is what a call of `persist` would save now.  Every step leaves it alone, or
saves it, or (the second write of `Snapshot` and of `InstallSnapshot`) erases what was
saved: `Node.Saves`.  So in every run the raft state of a `Persister` is empty or is what
the peer holds in memory (`Node.Durable`).
-/

variable {n : ℕ} {C D : Type}

namespace Node

/-- What `persist` would save. -/
def bytes (nd : Node n C D) : RaftBytes n C :=
  { currentTerm := nd.currentTerm
    votedFor := nd.votedFor
    lastIncludedIndex := nd.lastIncludedIndex
    lastIncludedTerm := nd.lastIncludedTerm
    log := nd.log }

/-- The saved raft state is empty or the one in memory. -/
def Durable (nd : Node n C D) : Prop := ∀ b, nd.persister.raftstate = some b → b = nd.bytes

/-- What a step other than a restart does to the durable part of a peer. -/
inductive Saves (nd nd' : Node n C D) : Prop
  | keep (hb : nd'.bytes = nd.bytes) (hp : nd'.persister = nd.persister)
  | save (ht : nd.currentTerm ≤ nd'.currentTerm) (hp : nd'.persister.raftstate = some nd'.bytes)
  | wipe (hb : nd'.bytes = nd.bytes) (hp : nd'.persister.raftstate = none)
      (hh : (∃ call args, nd.held = some (.installSave call args)) ∨
        ∃ snapshot, nd.held = some (.snapshotSave snapshot))

namespace Saves

variable {nd nd' nd'' : Node n C D}

/-- The other fields do not matter. -/
theorem congr (h : Saves nd nd') (hb : nd''.bytes = nd'.bytes)
    (hp : nd''.persister = nd'.persister) : Saves nd nd'' := by
  have hterm : nd''.currentTerm = nd'.currentTerm := congrArg RaftBytes.currentTerm hb
  cases h with
  | keep hb' hp' => exact .keep (hb.trans hb') (hp.trans hp')
  | save ht hp' => exact .save (hterm ▸ ht) (by rw [hp, hp', hb])
  | wipe hb' hp' hh => exact .wipe (hb.trans hb') (by rw [hp, hp']) hh

theorem currentTerm_le (h : Saves nd nd') : nd.currentTerm ≤ nd'.currentTerm := by
  cases h with
  | keep hb _ => exact (congrArg RaftBytes.currentTerm hb).ge
  | save ht _ => exact ht
  | wipe hb => exact (congrArg RaftBytes.currentTerm hb).ge

theorem durable (h : Saves nd nd') (hd : nd.Durable) : nd'.Durable := by
  intro b hb
  cases h with
  | keep hb' hp => rw [hp] at hb; rw [hd b hb, hb']
  | save _ hp => rw [hp] at hb; exact (Option.some.inj hb).symm
  | wipe _ hp => rw [hp] at hb; exact absurd hb (by simp)

theorem observe (nd : Node n C D) (t : ℕ) : Saves nd (nd.observe t) := by
  unfold Node.observe
  split
  · rename_i ht; exact .save ht.le rfl
  · exact .keep rfl rfl

end Saves

/-! ### The goroutines -/

variable {me : Fin n} {nd : Node n C D} {eff : Effect n C D}

theorem threadReply_saves {fresh k call : ℕ} {request : Call n C D} {ok : Bool}
    (h : nd.threadReply me fresh k call request ok = some eff) : nd.Saves eff.node := by
  cases threadReply_cases h with
  | voteCounted | beatRefused | appendDeposed => exact (Saves.observe nd _).congr rfl rfl
  | beatMatched | appendMatched =>
    unfold advanceMatch
    split <;> exact (Saves.observe nd _).congr rfl rfl
  | snapshotDeposed _ _ ht => exact .save ht.le rfl
  | _ => exact .keep rfl rfl

/-! ### The handlers -/

theorem handle_saves {call : ℕ} {request : Request n C D}
    (h : nd.handle call request = some eff) : nd.Saves eff.node := by
  have hdown (t : ℕ) : nd.Saves ((nd.observe t).stepDown t) := by
    unfold stepDown
    split
    · exact (Saves.observe nd t).congr rfl rfl
    · exact .observe nd t
  cases handle_cases h with
  | requestVote args => exact (Saves.observe nd args.term).congr rfl rfl
  | appendEntries args => exact (hdown args.term).congr rfl rfl
  | installSnapshot args => exact (Saves.observe nd args.term).congr rfl rfl

theorem copyEntry_eq (nd : Node n C D) (index : ℕ) (entry : LogEntry C) :
    ∃ log backing, nd.copyEntry index entry = { nd with log := log, backing := backing } := by
  unfold copyEntry
  repeat' split
  all_goals exact ⟨_, _, rfl⟩

/-- Copying entries writes nothing but the log. -/
theorem copyEntries_eq (nd : Node n C D) (index : ℕ) (entries : List (LogEntry C)) :
    ∃ log backing, nd.copyEntries index entries = { nd with log := log, backing := backing } := by
  induction entries generalizing nd index with
  | nil => exact ⟨nd.log, nd.backing, rfl⟩
  | cons entry entries ih =>
    obtain ⟨log₀, backing₀, h₀⟩ := copyEntry_eq nd index entry
    obtain ⟨log, backing, h⟩ := ih (nd.copyEntry index entry) (index + 1)
    exact ⟨log, backing, by rw [copyEntries, h, h₀]⟩

/-- Neither does `AppendEntries`, which then saves what it has copied. -/
theorem copyLog_eq (nd : Node n C D) (args : AppendEntriesArgs n C) :
    nd.copyLog args = nd ∨
      ∃ log backing, nd.copyLog args =
        ({ nd with log := log, backing := backing } : Node n C D).persist := by
  unfold copyLog
  split
  · exact .inl rfl
  · obtain ⟨log, backing, h⟩ := copyEntries_eq nd (args.prevLogIndex + 1) args.entries
    exact .inr ⟨log, backing, by rw [h]⟩

theorem resume_saves (h : nd.resume me = some eff) : nd.Saves eff.node := by
  cases resume_cases h with
  | grantVote | install => exact .save le_rfl rfl
  | @copyLog _ args =>
    rcases copyLog_eq nd args with h | ⟨log, backing, h⟩ <;> rw [h]
    · exact .keep rfl rfl
    · exact .save le_rfl rfl
  | appendCommit =>
    unfold appendCommit followCommit
    split <;> exact .keep rfl rfl
  | installSave hh => exact .wipe rfl rfl (.inl ⟨_, _, hh⟩)
  | snapshotSave hh => exact .wipe rfl rfl (.inr ⟨_, hh⟩)
  | _ => exact .keep rfl rfl

end Node

namespace World

/-- Every step but a restart keeps, saves or erases the durable part of its peer. -/
theorem local_saves {w : World n C D} {p : Fin n} {eff : Effect n C D} {a : Action n C D}
    (h : Local w p eff a) : a = .restart p ∨ (w.nodes p).Saves eff.node := by
  cases h with
  | main h =>
    right
    cases Node.mainStep_cases h with
    | elect => exact .save (Nat.le_succ _) rfl
    | _ => exact .keep rfl rfl
  | thread k h => cases Node.threadStep_cases h <;> exact .inr (.keep rfl rfl)
  | reply k call ok request _ h => exact .inr (Node.threadReply_saves h)
  | apply h => cases Node.applyStep_cases h <;> exact .inr (.keep rfl rfl)
  | deliver call request _ _ h => exact .inr (Node.handle_saves h)
  | resume h => exact .inr (Node.resume_saves h)
  | start command h =>
    cases Node.tryStart_cases h with
    | append => exact .inr (.save le_rfl rfl)
    | ignore => exact .inr (.keep rfl rfl)
  | snapshot index snapshot h =>
    cases Node.trySnapshot_cases h with
    | compact => exact .inr (.save le_rfl rfl)
    | ignore | exit => exact .inr (.keep rfl rfl)
  | restart h => exact .inl rfl

end World

end MitDistributed.Raft
