import MitDistributed.Raft.Calls
import MitDistributed.Raft.Safety

namespace MitDistributed.Raft

open Consensus

/-!
# Raft — `sendAppendEntries` finds the place where the logs meet

A refused `AppendEntries` request names the index to retry from: behind the snapshot of the
follower, at the end of its log, or before the entries of the conflicting term.  `nextIndex`
therefore jumps down and up, and the retry may even point into the snapshot of the follower.

* `Node.attempt` — one round of the loop in `sendAppendEntries`: the check, the entries encoded one
  by one, the whole handler at the follower, and what the leader makes of the reply;
* `Node.sendLoop` — rounds one after the other, with commands that the leader starts in between;
* `backtracking_converges` — the loop comes to `Success` or to the snapshot within
  `nextIndex + 1` rounds, and nothing on the way ends a process;
* `World.Reachable.logs_meet` — runs that commit safely meet its assumptions on the logs.

The measure is `PrevLogIndex` as long as it lies above the snapshot of the follower; once it has
fallen below, the next refusal leads exactly to the end of that snapshot, where the logs agree.
-/

variable {n : ℕ} {C D : Type}

/-- How a round of `sendAppendEntries` ends: with another request, because the follower has
    accepted this one, or with the snapshot; or else the goroutine returns, or a process ends. -/
inductive Attempt (n : ℕ) (C D : Type)
  | again (leader follower : Node n C D) (args : SenderArgs n)
  | success (leader follower : Node n C D) (args : SenderArgs n)
  | snapshot (leader follower : Node n C D) (args : InstallSnapshotArgs n D)
  | returned
  | aborted

namespace Node

/-! ### The loop of the handler -/

/-- The loop that looks for the retry index, with the abort of `getTermOfLog`. -/
def backtrack (nd : Node n C D) (conflictTerm : ℕ) : ℕ → Option ℕ
  | 0 => some 0
  | tempIndex + 1 =>
    if tempIndex + 1 > 1 ∧ tempIndex + 1 ≥ nd.lastIncludedIndex then
      (nd.getTermOfLog (tempIndex + 1)).bind fun term =>
        if term = conflictTerm then nd.backtrack conflictTerm tempIndex else some (tempIndex + 1)
    else some (tempIndex + 1)

/-- It reads within the log, and finds what `nextRetryStartIndex` says. -/
theorem backtrack_eq {nd : Node n C D} {conflictTerm i : ℕ} (hi : i < nd.getLogLength) :
    nd.backtrack conflictTerm i = some (nd.nextRetryStartIndex (some conflictTerm) i) := by
  induction i with
  | zero => rfl
  | succ i ih =>
    rw [backtrack, nextRetryStartIndex]
    by_cases hc : i + 1 > 1 ∧ i + 1 ≥ nd.lastIncludedIndex
    · obtain ⟨term, hterm⟩ := exists_getTermOfLog_iff.mpr ⟨hc.2, hi⟩
      rw [if_pos hc, hterm, Option.bind_some]
      by_cases heq : term = conflictTerm
      · rw [if_pos heq, if_pos ⟨hc.1, hc.2, congrArg some heq⟩, ih (by omega)]
      · rw [if_neg heq, if_neg fun h => heq (Option.some.inj h.2.2)]
    · rw [if_neg hc, if_neg fun h => hc ⟨h.1, h.2.1⟩]

theorem nextRetryStartIndex_bounds (nd : Node n C D) (conflictTerm : Option ℕ) {i : ℕ}
    (hi : 0 < i) :
    0 < nd.nextRetryStartIndex conflictTerm i ∧ nd.nextRetryStartIndex conflictTerm i ≤ i := by
  induction i with
  | zero => exact absurd hi (lt_irrefl 0)
  | succ i ih =>
    rw [nextRetryStartIndex]
    split
    · rename_i hc
      obtain ⟨hpos, hle⟩ := ih (by omega)
      exact ⟨hpos, hle.trans (Nat.le_succ i)⟩
    · exact ⟨hi, le_rfl⟩

/-- Whether the handler gets through its loop, should there be a conflict. -/
def getsThrough (nd : Node n C D) (args : AppendEntriesArgs n C) : Bool :=
  match nd.getTermOfLog args.prevLogIndex with
  | none => true
  | some conflictTerm => (nd.backtrack conflictTerm args.prevLogIndex).isSome

theorem getsThrough_eq_true (nd : Node n C D) (args : AppendEntriesArgs n C) :
    nd.getsThrough args = true := by
  unfold getsThrough
  split
  · rfl
  · rename_i term hterm
    obtain ⟨-, hlt⟩ := exists_getTermOfLog_iff.mp ⟨term, hterm⟩
    rw [backtrack_eq hlt]
    rfl

/-! ### The loop of `sendAppendEntries` -/

/-- The commands that clients start at the leader. -/
def startAll (me : Fin n) (nd : Node n C D) (commands : List (Option C)) : Node n C D :=
  commands.foldl (fun nd command => (nd.start me command).node) nd

/-- What has become of the goroutine of the loop, the only one that is looked at. -/
def conclude (leader follower : Node n C D) (args : SenderArgs n) (success : Bool) :
    Attempt n C D :=
  match leader.exited, leader.threads with
  | true, _ => .aborted
  | false, [.sendAppendEntries _ args' _] => .again leader follower args'
  | false, [.sendInstallSnapshot _ args' _] => .snapshot leader follower args'
  | false, _ => if success then .success leader follower args else .returned

/-- `Call` at the leader, in at most so many steps: the entries are encoded one by one, and then the
    request is on its way. -/
def encodeRequest (me peer : Fin n) (call : ℕ) (args : SenderArgs n) :
    ℕ → Node n C D → Effect n C D
  | 0, nd => { node := nd }
  | left + 1, nd =>
    match nd.threads with
    | [.sendAppendEntries _ _ (.encode encoded)] =>
      let eff := nd.callAppendEntries me call 0 peer args encoded
      if eff.send.isSome then eff else encodeRequest me peer call args left eff.node
    | _ => { node := nd }

/-- One round. -/
def attempt (me peer : Fin n) (call : ℕ) (leader follower : Node n C D) (args : SenderArgs n) :
    Attempt n C D :=
  let checked := { leader with
    threads := [.sendAppendEntries peer args .check] }.checkAppendEntries 0 peer args
  let calling := checked.node.encodeRequest me peer call args (args.entries.length + 1)
  match calling.send.map Call.request with
  | some (.appendEntries request) =>
    let served := follower.serveAppendEntries peer call request
    match follower.getsThrough request, served.answer with
    | true, some (_, .appendEntries reply) =>
      (calling.node.receiveAppendEntries me 0 peer args (some reply)).node.conclude served.node args
        reply.success
    | _, _ => .aborted
  | _ => .returned

/-- Rounds until the loop ends or the list does; before each one the leader may get commands. -/
def sendLoop (me peer : Fin n) (call : ℕ) : List (List (Option C)) → Attempt n C D → Attempt n C D
  | commands :: rest, .again leader follower args =>
    sendLoop me peer call rest (attempt me peer call (leader.startAll me commands) follower args)
  | _, ended => ended

theorem sendLoop_success (me peer : Fin n) (call : ℕ) (batches : List (List (Option C)))
    (leader follower : Node n C D) (args : SenderArgs n) :
    sendLoop me peer call batches (.success leader follower args) =
      .success leader follower args := by
  cases batches <;> rfl

theorem sendLoop_snapshot (me peer : Fin n) (call : ℕ) (batches : List (List (Option C)))
    (leader follower : Node n C D) (args : InstallSnapshotArgs n D) :
    sendLoop me peer call batches (.snapshot leader follower args) =
      .snapshot leader follower args := by
  cases batches <;> rfl

/-! ### What the leader sends -/

variable {leader follower : Node n C D} {args : SenderArgs n}

/-- The request that the window of `args` shows. -/
def shownRequest (leader : Node n C D) (args : SenderArgs n) : AppendEntriesArgs n C :=
  args.request (leader.readSlice args.entries)

/-- The leader, with the goroutine of the loop encoding the request. -/
def encodingAt (leader : Node n C D) (peer : Fin n) (args : SenderArgs n)
    (encoded : List (LogEntry C)) : Node n C D :=
  { leader with threads := [.sendAppendEntries peer args (.encode encoded)] }

/-- The leader, with the goroutine of the loop waiting for the reply. -/
def awaiting (leader : Node n C D) (peer : Fin n) (args : SenderArgs n) (call : ℕ) :
    Node n C D :=
  { leader with threads := [.sendAppendEntries peer args (.wait call)] }

theorem encodeRequest_succ (me peer : Fin n) (call left : ℕ) (encoded : List (LogEntry C)) :
    (leader.encodingAt peer args encoded).encodeRequest me peer call args (left + 1) =
      let eff := (leader.encodingAt peer args encoded).callAppendEntries me call 0 peer args encoded
      if eff.send.isSome then eff else eff.node.encodeRequest me peer call args left :=
  rfl

/-- The encoder goes through the window, and what it sends is what the window shows: nothing else
    happens at the leader. -/
theorem encodeRequest_eq (me peer : Fin n) (call : ℕ) {encoded : List (LogEntry C)} {left : ℕ}
    (h : leader.WillSend leader.currentTerm (· = leader.shownRequest args) args (.encode encoded))
    (hleft : args.entries.length < encoded.length + left) :
    (leader.encodingAt peer args encoded).encodeRequest me peer call args left =
      { node := leader.awaiting peer args call
        send := some (newCall me peer (.appendEntries (leader.shownRequest args))) } := by
  induction left generalizing encoded with
  | zero => exact absurd hleft (Nat.not_lt.mpr h.length_le)
  | succ left ih =>
    rw [encodeRequest_succ]
    by_cases hlt : encoded.length < args.entries.length
    · have hstep : (leader.encodingAt peer args encoded).callAppendEntries me call 0 peer args
          encoded = { node := (leader.encodingAt peer args
            (encoded ++ [leader.sliceEntry args.entries encoded.length])) } := if_pos hlt
      rw [hstep]
      refine ih (h.encode hlt) ?_
      rw [List.length_append, List.length_singleton]
      omega
    · have hsend : (leader.encodingAt peer args encoded).callAppendEntries me call 0 peer args
          encoded = { node := (leader.awaiting peer args call)
                      send := some (newCall me peer (.appendEntries (args.request encoded))) } :=
        if_neg hlt
      rw [hsend, h.sends hlt]
      rfl

/-! ### What the leader makes of a reply -/

theorem conclude_of_live {threads : List (Thread n C D)} {success : Bool}
    (hlive : leader.exited = false) : leader.threads = threads →
    leader.conclude follower args success =
      match threads with
      | [.sendAppendEntries _ args' _] => .again leader follower args'
      | [.sendInstallSnapshot _ args' _] => .snapshot leader follower args'
      | _ => if success then .success leader follower args else .returned := by
  rintro rfl
  unfold conclude
  rw [hlive]
  rcases leader.threads with _ | ⟨th, _ | _⟩
  · rfl
  all_goals cases th <;> rfl

section

variable (me : Fin n) {peer : Fin n} {call : ℕ} (hframes : leader.Frames args.entries)
  (hlead : leader.leads args.term)

include hframes hlead

/-- A round in which the follower gives an answer. -/
theorem attempt_eq {reply : AppendEntriesReply}
    (hans : (follower.serveAppendEntries peer call (leader.shownRequest args)).answer =
      some (call, .appendEntries reply)) :
    attempt me peer call leader follower args =
      ((leader.awaiting peer args call).receiveAppendEntries me 0 peer args
        (some reply)).node.conclude
        (follower.serveAppendEntries peer call (leader.shownRequest args)).node args
        reply.success := by
  have hcheck : ({ leader with threads := [.sendAppendEntries peer args .check] } :
      Node n C D).checkAppendEntries 0 peer args =
      { node := leader.encodingAt peer args [] } := if_pos hlead
  have hwill : leader.WillSend leader.currentTerm (· = leader.shownRequest args) args
      (.encode []) := ⟨⟨hframes, rfl⟩, List.nil_prefix⟩
  have hleft : args.entries.length <
      ([] : List (LogEntry C)).length + (args.entries.length + 1) := by simp
  have hcall := encodeRequest_eq me peer call hwill hleft
  unfold attempt
  simp only [hcheck, hcall, Option.map_some, newCall, getsThrough_eq_true, hans]

/-- A success ends the loop. -/
theorem attempt_of_success (hlive : leader.exited = false)
    (hans : (follower.serveAppendEntries peer call (leader.shownRequest args)).answer =
      some (call, .appendEntries ⟨args.term, true, 0⟩)) :
    ∃ leader', attempt me peer call leader follower args =
        .success leader'
          (follower.serveAppendEntries peer call (leader.shownRequest args)).node args ∧
      leader.KeepsLog leader' := by
  have hlead' : (leader.awaiting peer args call).leads args.term := hlead
  have hobs : (leader.awaiting peer args call).observe args.term =
      leader.awaiting peer args call := if_neg (by rw [hlead'.1]; exact lt_irrefl _)
  refine ⟨((leader.awaiting peer args call).advanceMatch peer
    (args.prevLogIndex + args.entries.length)).endThread 0, ?_, ?_⟩
  · rw [attempt_eq me hframes hlead hans]
    simp only [receiveAppendEntries, if_pos hlead', if_pos, hobs]
    unfold advanceMatch
    split <;> exact Eq.trans (conclude_of_live hlive rfl) rfl
  · unfold advanceMatch
    split <;> exact ⟨rfl, rfl, rfl⟩

variable {retry : ℕ}
  (hans : (follower.serveAppendEntries peer call (leader.shownRequest args)).answer =
    some (call, .appendEntries ⟨args.term, false, retry⟩))

include hans

/-- A refusal makes the goroutine retry. -/
theorem attempt_of_refusal :
    attempt me peer call leader follower args =
      ((leader.awaiting peer args call).retryAppendEntries me 0 peer args retry).node.conclude
        (follower.serveAppendEntries peer call (leader.shownRequest args)).node args false := by
  have hlead' : (leader.awaiting peer args call).leads args.term := hlead
  rw [attempt_eq me hframes hlead hans]
  simp only [receiveAppendEntries, if_pos hlead', Bool.false_eq_true, if_false, hlead'.1,
    gt_iff_lt, lt_irrefl]

variable (hlive : leader.exited = false)

include hlive

/-- It leads to the snapshot if the retry index is compacted. -/
theorem attempt_of_compacted (hpos : 0 < retry) (hle : retry ≤ leader.lastIncludedIndex) :
    ∃ leader' follower' args', attempt me peer call leader follower args =
      .snapshot leader' follower' args' := by
  have hle' : retry ≤ (leader.awaiting peer args call).lastIncludedIndex := hle
  rw [attempt_of_refusal me hframes hlead hans]
  unfold retryAppendEntries
  rw [if_neg hpos.ne', if_pos hle']
  exact ⟨_, _, _, Eq.trans (conclude_of_live hlive rfl) rfl⟩

/-- Otherwise it leads to another request. -/
theorem attempt_of_refused (hlt : leader.lastIncludedIndex < retry) {args' : SenderArgs n}
    (hargs : leader.appendArgs me args.term (retry - 1) args.leaderCommit = some args') :
    attempt me peer call leader follower args =
      .again { leader with
        nextIndex := Function.update leader.nextIndex peer retry
        threads := [.sendAppendEntries peer args' .check] }
        (follower.serveAppendEntries peer call (leader.shownRequest args)).node args' := by
  have hlt' : ¬ retry ≤ (leader.awaiting peer args call).lastIncludedIndex := not_le.mpr hlt
  have hargs' : (leader.awaiting peer args call).appendArgs me args.term (retry - 1)
      args.leaderCommit = some args' := hargs
  rw [attempt_of_refusal me hframes hlead hans]
  unfold retryAppendEntries
  rw [if_neg (Nat.zero_lt_of_lt hlt).ne', if_neg hlt', hargs']
  exact Eq.trans (conclude_of_live hlive rfl) rfl

end

/-- Within the log of the leader there is a request to build. -/
theorem Shows.exists_appendArgs {l : List (LogEntry C)} (h : leader.Shows l) (me : Fin n)
    (term leaderCommit : ℕ) {prevLogIndex : ℕ} (hlow : leader.lastIncludedIndex ≤ prevLogIndex)
    (hle : prevLogIndex ≤ l.length) :
    ∃ args, leader.appendArgs me term prevLogIndex leaderCommit = some args := by
  have hlen := h.getLogLength_eq
  have hlogs : leader.getLogsFrom (prevLogIndex + 1) = some (leader.backing.slice
      (prevLogIndex + 1 - leader.lastIncludedIndex)
        (leader.getLogLength - leader.lastIncludedIndex)) := by
    unfold getLogsFrom getLogs
    rw [if_neg (lt_irrefl _), if_neg (by omega), if_neg (by omega)]
  unfold appendArgs
  rw [h.getTermOfLog_eq hlow hle, hlogs]
  exact ⟨_, rfl⟩

/-! ### What the follower answers -/

section

variable {args : AppendEntriesArgs n C}

theorem KeepsLog.shows {nd x : Node n C D} {l : List (LogEntry C)} (h : nd.KeepsLog x)
    (hl : nd.Shows l) : x.Shows l :=
  hl.congr h.1 h.2.2 h.2.1

/-- Where a refusal sends the leader: behind the snapshot, or to the request before. -/
theorem appendLog_refuses {nd : Node n C D} (call : ℕ) (hne : nd.log ≠ [])
    (hterm : nd.currentTerm ≤ args.term) (hpass : ¬ nd.Passes args)
    (hprev : args.prevLogIndex ≠ nd.lastIncludedIndex) :
    ∃ retry, nd.appendLog call args = nd.answer call (.appendEntries
        { term := nd.currentTerm, success := false, nextRetryStartIndex := retry }) ∧
      (args.prevLogIndex < nd.lastIncludedIndex ∧ retry = nd.lastIncludedIndex + 1 ∨
        nd.lastIncludedIndex < args.prevLogIndex ∧ 0 < retry ∧ retry ≤ args.prevLogIndex) := by
  unfold appendLog
  rw [if_neg (not_lt.mpr hterm)]
  rcases lt_or_gt_of_ne hprev with hlow | hhigh
  · rw [if_pos hlow]
    exact ⟨_, rfl, .inl ⟨hlow, rfl⟩⟩
  rw [if_neg (not_lt.mpr hhigh.le)]
  have hlen : 0 < nd.getLogLength := Nat.add_pos_right _ (List.length_pos_iff.mpr hne)
  by_cases hend : args.prevLogIndex > nd.getLogLength - 1
  · rw [if_pos hend]
    exact ⟨_, rfl, .inr ⟨hhigh, hlen, by omega⟩⟩
  · have hpos : 0 < args.prevLogIndex := Nat.zero_lt_of_lt hhigh
    rw [if_neg hend, if_pos fun h => hpass ⟨hterm, h⟩, if_neg hpos.ne']
    exact ⟨_, rfl, .inr ⟨hhigh, nextRetryStartIndex_bounds nd _ hpos⟩⟩

/-- The same for the whole handler, which leaves the log alone then. -/
theorem serveAppendEntries_refuses (peer : Fin n) (call : ℕ) (hne : follower.log ≠ [])
    (hterm : follower.currentTerm ≤ args.term) (hpass : ¬ follower.Passes args)
    (hprev : args.prevLogIndex ≠ follower.lastIncludedIndex) :
    ∃ retry, (follower.serveAppendEntries peer call args).answer =
        some (call, .appendEntries ⟨args.term, false, retry⟩) ∧
      (follower.serveAppendEntries peer call args).node = (follower.hear args.term).release ∧
      (args.prevLogIndex < follower.lastIncludedIndex ∧ retry = follower.lastIncludedIndex + 1 ∨
        follower.lastIncludedIndex < args.prevLogIndex ∧ 0 < retry ∧
          retry ≤ args.prevLogIndex) := by
  have hmid : (follower.appendEntries call args).node.currentTerm = args.term :=
    currentTerm_hear.trans (max_eq_right hterm)
  have hlog : follower.KeepsLog (follower.appendEntries call args).node := keepsLog_hear
  obtain ⟨retry, hrefuse, hcase⟩ := appendLog_refuses call (hlog.2.1 ▸ hne) hmid.le
    ((passes_appendEntries_iff call).not.mpr hpass) (hlog.1 ▸ hprev)
  rw [hlog.1] at hcase
  have hserve : follower.serveAppendEntries peer call args =
      (follower.hear args.term).answer call (.appendEntries ⟨args.term, false, retry⟩) := by
    unfold serveAppendEntries
    rw [hrefuse, hmid]
    rfl
  rw [hserve]
  exact ⟨retry, rfl, rfl, hcase⟩

end

end Node

/-! ### The state of the loop -/

/-- The leader of term `t` stands for the log `l`, the follower for `f`, and the window of the
    request shows the log of the leader as it was when the request was built.  The logs match,
    whatever the leader appends, and the snapshot of the follower is a part of the leader's log. -/
structure Tries (t : ℕ) (l f : List (LogEntry C)) (leader follower : Node n C D)
    (args : SenderArgs n) : Prop where
  leads : leader.leads t
  live : leader.exited = false
  leaderLog : leader.Shows l
  followerLog : follower.Shows f
  followerTerm : follower.currentTerm ≤ t
  argsTerm : args.term = t
  carries : leader.Presents (fun request => ∃ c, request.Carries c ∧ c <+: l) args
  matching : ∀ commands : List (Option C),
    Matching LogEntry.term (l ++ commands.map (LogEntry.mk t)) f
  included : f.take follower.lastIncludedIndex <+: l

/-- The leader stands for the log `l`, and the follower holds `l` up to the last entry of the
    request. -/
def Node.Holds (follower leader : Node n C D) (l : List (LogEntry C)) (args : SenderArgs n) :
    Prop :=
  leader.Shows l ∧ ∃ f, follower.Shows f ∧
    args.prevLogIndex + args.entries.length ≤ f.length ∧
    f.take (args.prevLogIndex + args.entries.length) =
      l.take (args.prevLogIndex + args.entries.length)

/-- The rounds that may still come: below the snapshot of the follower it takes one more to get
    to its end, and above it every refusal goes down. -/
def roundsLeft (prevLogIndex lastIncludedIndex : ℕ) : ℕ :=
  if prevLogIndex < lastIncludedIndex then 2
  else if prevLogIndex = lastIncludedIndex then 1
  else prevLogIndex + 2

theorem roundsLeft_le (prevLogIndex lastIncludedIndex : ℕ) :
    roundsLeft prevLogIndex lastIncludedIndex ≤ prevLogIndex + 2 := by
  unfold roundsLeft
  split
  · omega
  · split <;> omega

theorem roundsLeft_pos (prevLogIndex lastIncludedIndex : ℕ) :
    0 < roundsLeft prevLogIndex lastIncludedIndex := by
  unfold roundsLeft
  split
  · omega
  · split <;> omega

theorem roundsLeft_lt {prev lii retry : ℕ}
    (h : prev < lii ∧ retry = lii + 1 ∨ lii < prev ∧ 0 < retry ∧ retry ≤ prev) :
    roundsLeft (retry - 1) lii < roundsLeft prev lii := by
  unfold roundsLeft
  rcases h with ⟨hlow, rfl⟩ | ⟨hhigh, hpos, hle⟩
  · rw [if_pos hlow, if_neg (by omega), if_pos (by omega)]
    exact Nat.one_lt_two
  · rw [if_neg (by omega : ¬ prev < lii), if_neg (by omega : ¬ prev = lii)]
    split
    · omega
    · split <;> omega

namespace Tries

variable {t : ℕ} {l f : List (LogEntry C)} {leader follower : Node n C D}
  {args : SenderArgs n} (me peer : Fin n) (call : ℕ)

section

variable (h : Tries t l f leader follower args)

include h

/-- `Start` at the leader.  What it appends goes behind the window of the request. -/
theorem start (command : Option C) :
    Tries t (l ++ [⟨t, command⟩]) f (leader.start me command).node follower args := by
  have hstart : (leader.start me command).node = (leader.appendCommand me command).go
      (.sendAppendEntriesToAll leader.currentTerm none) :=
    congrArg Effect.node (if_pos h.leads.2)
  have hshows : (leader.start me command).node.Shows (l ++ [⟨t, command⟩]) := by
    have happ := h.leaderLog.appendCommand me command
    rw [h.leads.1] at happ
    rw [hstart]
    exact happ.congr rfl rfl rfl
  refine ⟨?_, ?_, hshows, h.followerLog, h.followerTerm, h.argsTerm, ?_, fun commands => ?_,
    h.included.trans (List.prefix_append _ _)⟩
  · rw [hstart]
    exact h.leads
  · rw [hstart]
    exact h.live
  · rw [hstart]
    refine h.carries.spared (Memory.Backing.spares_append _) ?_
    rintro request ⟨c, hc, hcl⟩
    exact ⟨c, hc, hcl.trans (List.prefix_append _ _)⟩
  · rw [List.append_assoc]
    exact h.matching (command :: commands)

theorem startAll (commands : List (Option C)) :
    Tries t (l ++ commands.map (LogEntry.mk t)) f (leader.startAll me commands) follower args := by
  induction commands generalizing leader l with
  | nil =>
    rw [List.map_nil, List.append_nil]
    exact h
  | cons command commands ih =>
    have hrest := ih (h.start me command)
    rw [List.append_assoc] at hrest
    exact hrest

/-- At the end of its snapshot the follower accepts. -/
theorem passes (hprev : args.prevLogIndex = follower.lastIncludedIndex) :
    follower.Passes (leader.shownRequest args) := by
  obtain ⟨c, hc, hcl⟩ := h.carries.shows
  have hle := h.followerLog.le
  have hprev' : (leader.shownRequest args).prevLogIndex = follower.lastIncludedIndex := hprev
  have hterm : (leader.shownRequest args).prevLogTerm =
      termAt LogEntry.term l follower.lastIncludedIndex :=
    hc.term.trans ((termAt_of_isPrefix hcl hc.le).trans (congrArg _ hprev'))
  refine ⟨h.followerTerm.trans h.argsTerm.ge, ?_⟩
  rw [hterm, hprev', h.followerLog.getTermOfLog_eq le_rfl hle]
  have hlen : (f.take follower.lastIncludedIndex).length = follower.lastIncludedIndex := by
    rw [List.length_take, min_eq_left hle]
  rw [← termAt_of_isPrefix h.included hlen.ge, termAt_take le_rfl]

/-- A request that passes puts the log that it carries in the place of what differs. -/
theorem holds (hpass : follower.Passes (leader.shownRequest args)) {leader' : Node n C D}
    (hlog : leader.KeepsLog leader') :
    (follower.serveAppendEntries peer call (leader.shownRequest args)).node.Holds leader' l
      args := by
  obtain ⟨c, hc, hcl⟩ := h.carries.shows
  obtain ⟨hlii, hle, hterm⟩ := h.followerLog.of_getTermOfLog hpass.2
  have hm : Matching LogEntry.term f c := by
    have hlf := h.matching []
    rw [List.map_nil, List.append_nil] at hlf
    exact hlf.symm.of_isPrefix hcl
  have hpre : c.take args.prevLogIndex <+: f :=
    hm.symm.take_isPrefix hc.le hle (hc.term.symm.trans hterm.symm)
  have hlen : c.length = args.prevLogIndex + args.entries.length := by
    rw [hc.length, ← h.carries.frames.length_readSlice]
    rfl
  obtain ⟨f', hf', hover⟩ :=
    h.followerLog.copyEntries hlii hm (.inl ⟨hpre, rfl⟩) hc.entries hc.le
  have hcf := hover.isPrefix
  refine ⟨hlog.shows h.leaderLog, f', (Node.keepsLog_of_passes peer call hpass).shows hf', ?_, ?_⟩
  · rw [← hlen]
    exact hcf.length_le
  · rw [← hlen, ← List.prefix_iff_eq_take.mp hcf, ← List.prefix_iff_eq_take.mp hcl]

end

/-- A request that is built from the log of the leader. -/
theorem presents_of_appendArgs (hl : leader.Shows l) {term prevLogIndex leaderCommit : ℕ}
    (hargs : leader.appendArgs me term prevLogIndex leaderCommit = some args) :
    leader.Presents (fun request => ∃ c, request.Carries c ∧ c <+: l) args where
  frames := Node.within_getLogs (Node.appendArgs_fields hargs).2.2.2.2.2
  shows := ⟨l, World.carries_of_appendArgs hl hargs, List.prefix_rfl⟩

/-- A refusal never sends the leader beyond the end of its log, or to index 0. -/
theorem retry_le (h : Tries t l f leader follower args) {retry : ℕ}
    (hcase : args.prevLogIndex < follower.lastIncludedIndex ∧
        retry = follower.lastIncludedIndex + 1 ∨
      follower.lastIncludedIndex < args.prevLogIndex ∧ 0 < retry ∧ retry ≤ args.prevLogIndex) :
    0 < retry ∧ retry ≤ l.length + 1 := by
  rcases hcase with ⟨-, rfl⟩ | ⟨-, hpos, hle⟩
  · have hsnap := h.included.length_le
    rw [List.length_take, min_eq_left h.followerLog.le] at hsnap
    exact ⟨Nat.succ_pos _, Nat.succ_le_succ hsnap⟩
  · obtain ⟨c, hc, hcl⟩ := h.carries.shows
    exact ⟨hpos, (hle.trans (hc.le.trans hcl.length_le)).trans (Nat.le_succ _)⟩

/-- **One round.** -/
theorem round (h : Tries t l f leader follower args) :
    (∃ leader' follower', Node.attempt me peer call leader follower args =
        .success leader' follower' args ∧ follower'.Holds leader' l args) ∨
    (∃ leader' follower' args', Node.attempt me peer call leader follower args =
        .snapshot leader' follower' args') ∨
    ∃ leader' follower' args', Node.attempt me peer call leader follower args =
        .again leader' follower' args' ∧ Tries t l f leader' follower' args' ∧
      roundsLeft args'.prevLogIndex follower'.lastIncludedIndex <
        roundsLeft args.prevLogIndex follower.lastIncludedIndex := by
  have hlead : leader.leads args.term := h.argsTerm ▸ h.leads
  have hterm : follower.currentTerm ≤ args.term := h.argsTerm ▸ h.followerTerm
  have hframes := h.carries.frames
  by_cases hpass : follower.Passes (leader.shownRequest args)
  · left
    obtain ⟨leader', hround, hlog⟩ := Node.attempt_of_success me hframes hlead h.live
      (Node.serveAppendEntries_of_passes peer call hpass).2
    exact ⟨leader', _, hround, h.holds peer call hpass hlog⟩
  right
  obtain ⟨retry, hans, hnode, hcase⟩ := Node.serveAppendEntries_refuses peer call
    h.followerLog.ne hterm hpass fun hprev => hpass (h.passes hprev)
  obtain ⟨hpos, hle⟩ : 0 < retry ∧ retry ≤ l.length + 1 := h.retry_le hcase
  by_cases hcompact : retry ≤ leader.lastIncludedIndex
  · exact .inl (Node.attempt_of_compacted me hframes hlead hans h.live hpos hcompact)
  right
  rw [not_le] at hcompact
  obtain ⟨args', hargs⟩ := h.leaderLog.exists_appendArgs me args.term args.leaderCommit
    (Nat.le_sub_one_of_lt hcompact) (by omega : retry - 1 ≤ l.length)
  obtain ⟨hterm', -, hprev', -⟩ := Node.appendArgs_fields hargs
  have hlog : follower.KeepsLog
      (follower.serveAppendEntries peer call (leader.shownRequest args)).node :=
    Node.keepsLog_of_not_passes peer call hpass
  have hpres := presents_of_appendArgs me h.leaderLog hargs
  refine ⟨_, _, args', Node.attempt_of_refused me hframes hlead hans h.live hcompact hargs, ?_, ?_⟩
  · refine ⟨h.leads, h.live, h.leaderLog.congr rfl rfl rfl, hlog.shows h.followerLog, ?_,
      hterm'.trans h.argsTerm, ⟨hpres.frames, hpres.shows⟩, h.matching, hlog.1 ▸ h.included⟩
    rw [hnode]
    exact (Node.currentTerm_hear.trans (max_eq_right hterm)).le.trans h.argsTerm.le
  · rw [hlog.1, hprev']
    exact roundsLeft_lt hcase

/-- **The loop.** It ends, or the list of rounds does, before the measure is used up. -/
theorem loop (h : Tries t l f leader follower args) (batches : List (List (Option C))) :
    (∃ leader' follower' args' rounds,
      Node.sendLoop me peer call batches (.again leader follower args) =
        .success leader' follower' args' ∧
      follower'.Holds leader' (l ++ (batches.take rounds).flatten.map (LogEntry.mk t)) args') ∨
    (∃ leader' follower' args', Node.sendLoop me peer call batches (.again leader follower args) =
        .snapshot leader' follower' args') ∨
    (∃ leader' follower' args', Node.sendLoop me peer call batches (.again leader follower args) =
        .again leader' follower' args') ∧
      batches.length < roundsLeft args.prevLogIndex follower.lastIncludedIndex := by
  induction batches generalizing l leader follower args with
  | nil => exact .inr (.inr ⟨⟨leader, follower, args, rfl⟩, roundsLeft_pos _ _⟩)
  | cons commands rest ih =>
    have h' := h.startAll me commands
    rw [Node.sendLoop]
    rcases h'.round me peer call with ⟨leader', follower', hround, hholds⟩ |
      ⟨leader', follower', args', hround⟩ | ⟨leader', follower', args', hround, hnext, hlt⟩
    · rw [hround, Node.sendLoop_success]
      refine .inl ⟨leader', follower', args, 1, rfl, ?_⟩
      rw [List.take_succ_cons, List.take_zero, List.flatten_singleton]
      exact hholds
    · rw [hround, Node.sendLoop_snapshot]
      exact .inr (.inl ⟨leader', follower', args', rfl⟩)
    · rw [hround]
      rcases ih hnext with ⟨leader₁, follower₁, args₁, rounds, hdone, hholds⟩ | hdone |
        ⟨hagain, hleft⟩
      · refine .inl ⟨leader₁, follower₁, args₁, rounds + 1, hdone, ?_⟩
        rw [List.take_succ_cons, List.flatten_cons, List.map_append, ← List.append_assoc]
        exact hholds
      · exact .inr (.inl hdone)
      · refine .inr (.inr ⟨hagain, ?_⟩)
        rw [List.length_cons]
        omega

end Tries

/-- **Backtracking converges.** Let a leader of term `t` stand for the log `l` and a follower, of no
    later term, for `f`; let the logs match, whatever the leader appends, and let the snapshot of
    the follower be a part of `l`.  From any `nextIndex` behind the snapshot of the leader and not
    beyond the end of its log there is a first request to build; and whatever commands the leader
    gets before each round, the loop of `sendAppendEntries` comes to `Success`, with the log of the
    leader, `l` and the commands of the rounds so far, at the follower up to the last entry sent, or
    to the snapshot, and is at it no longer than `nextIndex` rounds.  In particular no process
    ends. -/
theorem backtracking_converges {leader follower : Node n C D} {l f : List (LogEntry C)}
    {t nextIndex : ℕ} (me peer : Fin n) (call leaderCommit : ℕ) (hlead : leader.leads t)
    (hlive : leader.exited = false) (hl : leader.Shows l) (hf : follower.Shows f)
    (hterm : follower.currentTerm ≤ t)
    (hm : ∀ commands : List (Option C),
      Matching LogEntry.term (l ++ commands.map (LogEntry.mk t)) f)
    (hsnap : f.take follower.lastIncludedIndex <+: l)
    (hlow : leader.lastIncludedIndex + 1 ≤ nextIndex) (hhigh : nextIndex ≤ l.length + 1) :
    ∃ args, leader.appendArgs me t (nextIndex - 1) leaderCommit = some args ∧
      ∀ batches : List (List (Option C)),
        (∃ leader' follower' args' rounds,
          Node.sendLoop me peer call batches (.again leader follower args) =
            .success leader' follower' args' ∧
          follower'.Holds leader' (l ++ (batches.take rounds).flatten.map (LogEntry.mk t)) args') ∨
        (∃ leader' follower' args',
          Node.sendLoop me peer call batches (.again leader follower args) =
            .snapshot leader' follower' args') ∨
        (∃ leader' follower' args',
          Node.sendLoop me peer call batches (.again leader follower args) =
            .again leader' follower' args') ∧ batches.length ≤ nextIndex := by
  obtain ⟨args, hargs⟩ := hl.exists_appendArgs me t leaderCommit
    (Nat.le_sub_one_of_lt hlow) (by omega : nextIndex - 1 ≤ l.length)
  obtain ⟨hterm', -, hprev, -⟩ := Node.appendArgs_fields hargs
  have htries : Tries t l f leader follower args :=
    ⟨hlead, hlive, hl, hf, hterm, hterm', Tries.presents_of_appendArgs me hl hargs, hm, hsnap⟩
  refine ⟨args, hargs, fun batches => ?_⟩
  rcases htries.loop me peer call batches with hdone | hdone | ⟨hagain, hlt⟩
  · exact .inl hdone
  · exact .inr (.inl hdone)
  · have hle := roundsLeft_le args.prevLogIndex follower.lastIncludedIndex
    exact .inr (.inr ⟨hagain, by omega⟩)

/-- Leader 0 of term 3 has an entry of term 1 and two of its own. -/
def leaderOfTerm3 : Node 3 ℕ ℕ :=
  { Node.make { raftstate := none, snapshot := none } (fun _ => 0) with
    state := .leaderState
    currentTerm := 3
    log := [⟨0, none⟩, ⟨1, some 7⟩, ⟨3, some 8⟩, ⟨3, some 9⟩] }

/-- Peer 1 has the first one too, and then one of term 2. -/
def followerOfTerm2 : Node 3 ℕ ℕ :=
  { Node.make { raftstate := none, snapshot := none } (fun _ => 0) with
    currentTerm := 2
    log := [⟨0, none⟩, ⟨1, some 7⟩, ⟨2, some 5⟩] }

/-- From the end of the leader's log, with a command on the way, five rounds are enough. -/
theorem backtracking_converges_leaderOfTerm3 :
    ∃ args, leaderOfTerm3.appendArgs 0 3 3 0 = some args ∧
      ((∃ leader' follower' args' rounds,
        Node.sendLoop 0 1 0 [[], [some 4], [], [], []] (.again leaderOfTerm3 followerOfTerm2 args) =
          .success leader' follower' args' ∧
        follower'.Holds leader' ([⟨1, some 7⟩, ⟨3, some 8⟩, ⟨3, some 9⟩] ++
          (([[], [some 4], [], [], []] : List (List (Option ℕ))).take rounds).flatten.map
            (LogEntry.mk 3)) args') ∨
      ∃ leader' follower' args',
        Node.sendLoop 0 1 0 [[], [some 4], [], [], []] (.again leaderOfTerm3 followerOfTerm2 args) =
          .snapshot leader' follower' args') := by
  have hl : leaderOfTerm3.Shows [⟨1, some 7⟩, ⟨3, some 8⟩, ⟨3, some 9⟩] :=
    ⟨Nat.zero_le _, by decide, rfl, rfl⟩
  have hf : followerOfTerm2.Shows [⟨1, some 7⟩, ⟨2, some 5⟩] :=
    ⟨Nat.zero_le _, by decide, rfl, rfl⟩
  have hm : Matching LogEntry.term ([⟨1, some 7⟩, ⟨3, some 8⟩, ⟨3, some 9⟩] : List (LogEntry ℕ))
      [⟨1, some 7⟩, ⟨2, some 5⟩] := by decide
  have hlow : leaderOfTerm3.lastIncludedIndex + 1 ≤ 4 := by decide
  obtain ⟨args, hargs, hloop⟩ := backtracking_converges 0 1 0 0 ⟨rfl, rfl⟩ rfl hl hf (by decide)
    (fun commands => hm.append_left (by decide) _) (by decide) hlow (by decide)
  refine ⟨args, hargs, ?_⟩
  rcases hloop [[], [some 4], [], [], []] with hdone | hdone | ⟨-, hlen⟩
  · exact .inl hdone
  · exact .inr hdone
  · exact absurd hlen (by decide)

/-- In a run that commits safely, a leader and any peer of no later term meet the assumptions:
    what the peer has of the leader's term is the leader's, and what it has compacted is
    committed. -/
theorem World.Reachable.logs_meet {w : World n C D} (h : World.Reachable World.CommitsSafely w)
    {p q : Fin n} {t : ℕ} (hlead : (w.nodes p).leads t) (hq : (w.nodes q).currentTerm ≤ t) :
    ∃ l f, (w.nodes p).Shows l ∧ (w.nodes q).Shows f ∧
      (∀ commands : List (Option C),
        Matching LogEntry.term (l ++ commands.map (LogEntry.mk t)) f) ∧
      f.take (w.nodes q).lastIncludedIndex <+: l := by
  obtain ⟨a, ha, hc⟩ := h.commits
  obtain ⟨hleader, -, hlog⟩ := ha.log_of_leads hlead
  have hroot := ha.sound.log_rooted q
  have hm := (ha.sound.log_rooted p).matching hroot
  refine ⟨a.log p, a.log q, ha.log p, ha.log q, fun commands i hi hi' hterm => ?_, ?_⟩
  · have hi : i ≤ (a.log p).length := by
      by_contra hbeyond
      -- an entry of term `t` beyond the log of the leader would be the leader's
      obtain ⟨k, rfl⟩ : ∃ k, i = k + 1 := ⟨i - 1, by omega⟩
      have hown : termAt LogEntry.term (a.log p ++ commands.map (LogEntry.mk t)) (k + 1) = t := by
        rw [List.length_append, List.length_map] at hi
        rw [termAt, List.getElem?_append_right (by omega), List.getElem?_map,
          List.getElem?_eq_getElem (by omega)]
        rfl
      have hpre := hroot.take_isPrefix (Nat.succ_pos k) hi'
      rw [← hterm, hown, ← hlog] at hpre
      have hle := hpre.length_le
      rw [List.length_take] at hle
      omega
    rw [← termAt_of_isPrefix (List.prefix_append _ _) hi] at hterm
    rw [List.take_append_of_le_length hi]
    exact hm i hi hi' hterm
  · have hknown := hc.included q
    rw [hlog]
    exact hknown.2.led ha.complete (by simp [hleader]) ((ha.term q).le.trans hq)

end MitDistributed.Raft
