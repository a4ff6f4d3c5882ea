import Dkron.Lib.Runs
import Dkron.Servers

/-!
# Raft membership

The leader keeps the Raft configuration in step with the gossip pool: `localMemberEvent`
(`dkron/serf.go`) queues the members of an event, and the leader loop takes them from the queue and
gives each to `reconcileMember` (`dkron/leader.go`).

`localMemberEvent` gives a reaped member a status of its own, `StatusReap`, and `reconcileMember`
has no case for it, so a server that is reaped while it is in the configuration stays there. So
does one whose name is the leader's in other letter case, which `removeRaftPeer` takes for the
leader.

The agent never makes the channel of the queue, and a nil channel takes nothing. The results here
are about every channel, and `configuration_of_nil_channel` is about that one.

Main result: `departed_everywhere_iff`.
-/

namespace Dkron

/-! ## The Raft configuration -/

/-- `raft.Configuration`: no two servers have the same id. -/
structure RaftConfiguration where
  servers : List RaftServer
  nodup : (servers.map RaftServer.id).Nodup

namespace RaftConfiguration

/-- The ids of the servers. -/
def ids (c : RaftConfiguration) : List String := c.servers.map RaftServer.id

/-- `RemoveServer`: the first server with the id goes. -/
def removeServer (serverID : String) (c : RaftConfiguration) : RaftConfiguration where
  servers := c.servers.eraseP fun server => server.id = serverID
  nodup := c.nodup.sublist (List.eraseP_sublist.map RaftServer.id)

/-- A server with the id gets the address. -/
def setAddress (serverID : String) (address : TCPAddr) (server : RaftServer) : RaftServer :=
  if server.id = serverID then ⟨serverID, address⟩ else server

theorem map_id_setAddress (serverID : String) (address : TCPAddr) (servers : List RaftServer) :
    (servers.map (setAddress serverID address)).map RaftServer.id =
      servers.map RaftServer.id := by
  rw [List.map_map]
  apply List.map_congr_left
  intro server _
  rw [Function.comp_apply, setAddress]
  split_ifs with h <;> simp [h]

/-- `AddVoter`: a known server gets the address, and a new one comes last. -/
def addVoter (serverID : String) (address : TCPAddr) (c : RaftConfiguration) : RaftConfiguration :=
  if h : serverID ∈ c.ids then
    ⟨c.servers.map (setAddress serverID address), by rw [map_id_setAddress]; exact c.nodup⟩
  else
    ⟨c.servers ++ [⟨serverID, address⟩], by
      rw [List.map_append]
      exact c.nodup.append (List.nodup_singleton serverID) (by simpa [ids] using h)⟩

theorem ids_removeServer (serverID : String) (c : RaftConfiguration) :
    (c.removeServer serverID).ids = c.ids.erase serverID := by
  show (c.servers.eraseP fun server => server.id = serverID).map RaftServer.id =
    (c.servers.map RaftServer.id).erase serverID
  induction c.servers with
  | nil => rfl
  | cons server servers ih =>
    by_cases h : server.id = serverID
    · simp [h]
    · simp [h, ih]

theorem mem_ids_removeServer {serverID : String} {c : RaftConfiguration} {n : String} :
    n ∈ (c.removeServer serverID).ids ↔ n ≠ serverID ∧ n ∈ c.ids := by
  rw [ids_removeServer]
  exact c.nodup.mem_erase_iff

theorem mem_ids_addVoter {serverID : String} {address : TCPAddr} {c : RaftConfiguration}
    {n : String} : n ∈ (c.addVoter serverID address).ids ↔ n ∈ c.ids ∨ n = serverID := by
  rw [addVoter]
  split_ifs with h
  · rw [ids, map_id_setAddress]
    exact ⟨Or.inl, fun hn => hn.elim (fun hn => hn) fun hn => hn ▸ h⟩
  · simp [ids]

end RaftConfiguration

/-! ## The leader -/

/-- `strings.EqualFold`: the texts are equal after `fold`, which takes a character to a chosen one
of those that differ from it in letter case only. -/
def equalFold (fold : Char → Char) (s t : String) : Bool := s.toList.map fold == t.toList.map fold

namespace RaftPeers

/-- What the agent reads: the name of its node, its region, whether it is a server and the leader,
and whether the channel `reconcileCh` is made. -/
structure Agent where
  nodeName : String
  region : String
  server : Bool := true
  isLeader : Bool := true
  reconcileCh : Bool

variable (parseIP : String → Option IP) (fold : Char → Char) (a : Agent)

/-- The loop of `addRaftPeer` over the servers of the configuration: the servers with the same
address and another id are removed, until the server itself is found. -/
def removeDuplicates (serverID : String) (addr : TCPAddr) :
    List RaftServer → RaftConfiguration → RaftConfiguration × Bool
  | [], c => (c, false)
  | server :: servers, c =>
    if server.address = addr ∧ server.id = serverID then (c, true)
    else if server.address = addr then
      removeDuplicates serverID addr servers (c.removeServer server.id)
    else removeDuplicates serverID addr servers c

/-- Another member is a server in bootstrap mode. -/
def otherBootstrap (members : List Serf.Member) (m : Serf.Member) : Bool :=
  members.any fun member =>
    match isServer parseIP member with
    | none => false
    | some p => member.name ≠ m.name && p.bootstrap

/-- `addRaftPeer`. -/
def addRaftPeer (members : List Serf.Member) (m : Serf.Member) (parts : ServerParts)
    (c : RaftConfiguration) : RaftConfiguration :=
  if parts.bootstrap ∧ otherBootstrap parseIP members m then c
  else if m.name = a.nodeName ∧ c.servers.length < 3 then c
  else
    let addr : TCPAddr := ⟨m.addr, parts.port⟩
    match removeDuplicates parts.id addr c.servers c with
    | (c, true) => c
    | (c, false) => c.addVoter parts.id addr

/-- `removeRaftPeer`. The leader does not remove itself. -/
def removeRaftPeer (m : Serf.Member) (parts : ServerParts) (c : RaftConfiguration) :
    RaftConfiguration :=
  if equalFold fold m.name a.nodeName then c
  else if parts.id ∈ c.ids then c.removeServer parts.id
  else c

/-- `reconcileMember`, with Raft calls that succeed. -/
def reconcileMember (members : List Serf.Member) (m : Serf.Member) (c : RaftConfiguration) :
    RaftConfiguration :=
  match isServer parseIP m with
  | none => c
  | some parts =>
    if parts.region ≠ a.region then c
    else
      match m.status with
      | .alive => addRaftPeer parseIP a members m parts c
      | .left => removeRaftPeer fold a m parts c
      -- a reaped member comes here
      | .none | .leaving | .failed | .reap => c

/-- The types of the events for members that are gone. -/
inductive EventType where
  | leave
  | reap
deriving DecidableEq

/-- `serf.MemberEvent`: the members of a leave event have left. -/
structure MemberEvent where
  eventType : EventType
  members : List Serf.Member
  left_of_leave : eventType = .leave → ∀ m ∈ members, m.status = .left

/-- The member as it is queued: one of a reap event gets a status of its own. -/
def queuedMember (isReap : Bool) (m : Serf.Member) : Serf.Member :=
  if isReap then { m with status := .reap } else m

/-- The loop of `localMemberEvent`. `room` says whether the channel takes another member when it
holds that many; a member it does not take is dropped. -/
def queueMembers (isReap : Bool) (room : ℕ → Bool) :
    List Serf.Member → List Serf.Member → List Serf.Member
  | [], queue => queue
  | m :: ms, queue =>
    queueMembers isReap room ms
      (if a.reconcileCh && room queue.length then queue ++ [queuedMember isReap m] else queue)

/-- `localMemberEvent`. -/
def localMemberEvent (me : MemberEvent) (room : ℕ → Bool) (queue : List Serf.Member) :
    List Serf.Member :=
  if ¬a.server ∨ ¬a.isLeader then queue
  else queueMembers a (me.eventType = .reap) room me.members queue

/-! ## Runs -/

/-- The Raft configuration, the members in the queue, and those the leader loop has handled. -/
structure State where
  configuration : RaftConfiguration
  queue : List Serf.Member := []
  handled : List Serf.Member := []

/-- A member event arrives, or the leader loop takes a member from the queue. -/
inductive Event where
  | memberEvent (me : MemberEvent) (room : ℕ → Bool)
  | handle (members : List Serf.Member)

/-- What one event does. -/
def step (s : State) : Event → State
  | .memberEvent me room => { s with queue := localMemberEvent a me room s.queue }
  | .handle members =>
    match s.queue with
    | [] => s
    | m :: queue =>
      { configuration := reconcileMember parseIP fold a members m s.configuration
        queue := queue
        handled := s.handled ++ [m] }

/-- No server that is gone is in the configuration, the leader apart. -/
def Departed (s : State) : Prop :=
  ∀ m ∈ s.handled, (isServer parseIP m).isSome → m.name ≠ a.nodeName →
    m.name ∉ s.configuration.ids

/-- The member has left, it is a server of the region, and its name differs from the leader's in
more than letter case. -/
def Removable (m : Serf.Member) (p : ServerParts) : Prop :=
  m.status = .left ∧ p.region = a.region ∧ ¬equalFold fold m.name a.nodeName

/-- A server in the configuration is handled only if it is removable, the leader apart. -/
def HandlesRemovable (s : State) : Event → Prop
  | .memberEvent _ _ => True
  | .handle _ => ∀ m ∈ s.queue.head?, ∀ p, isServer parseIP m = some p → m.name ≠ a.nodeName →
      m.name ∈ s.configuration.ids → Removable fold a m p

variable {parseIP fold a}

/-! ## Handling a member -/

theorem mem_ids_removeDuplicates {serverID n : String} {addr : TCPAddr} {servers : List RaftServer}
    {c : RaftConfiguration} (h : n ∈ (removeDuplicates serverID addr servers c).1.ids) :
    n ∈ c.ids := by
  induction servers generalizing c with
  | nil => exact h
  | cons server servers ih =>
    simp only [removeDuplicates] at h
    split_ifs at h
    · exact h
    · exact (RaftConfiguration.mem_ids_removeServer.1 (ih h)).2
    · exact ih h

/-- A server that joins brings in no id but its own. -/
theorem mem_ids_addRaftPeer {members : List Serf.Member} {m : Serf.Member} {p : ServerParts}
    {c : RaftConfiguration} {n : String} (h : n ∈ (addRaftPeer parseIP a members m p c).ids) :
    n ∈ c.ids ∨ n = p.id := by
  simp only [addRaftPeer] at h
  split_ifs at h
  · exact .inl h
  · exact .inl h
  · cases hdup : removeDuplicates p.id ⟨m.addr, p.port⟩ c.servers c with
    | mk c' found =>
      have hsub : n ∈ c'.ids → n ∈ c.ids := by
        intro hn
        have hc' : (removeDuplicates p.id ⟨m.addr, p.port⟩ c.servers c).1 = c' := by rw [hdup]
        exact mem_ids_removeDuplicates (hc' ▸ hn)
      cases found with
      | true => exact .inl (hsub (by simpa [hdup] using h))
      | false =>
        rw [hdup] at h
        exact (RaftConfiguration.mem_ids_addVoter.1 h).imp_left hsub

theorem mem_ids_removeRaftPeer {m : Serf.Member} {p : ServerParts} {c : RaftConfiguration}
    {n : String} : n ∈ (removeRaftPeer fold a m p c).ids ↔
      n ∈ c.ids ∧ (n = p.id → equalFold fold m.name a.nodeName) := by
  rw [removeRaftPeer]
  split_ifs with hfold hid
  · simp [hfold]
  · rw [RaftConfiguration.mem_ids_removeServer, and_comm]
    simp [hfold]
  · exact ⟨fun hn => ⟨hn, fun hne => absurd (hne ▸ hn) hid⟩, And.left⟩

/-- **What handling a member can do.** Only a server that is alive gets into the configuration. -/
theorem mem_ids_reconcileMember {members : List Serf.Member} {m : Serf.Member}
    {c : RaftConfiguration} {n : String}
    (h : n ∈ (reconcileMember parseIP fold a members m c).ids) :
    n ∈ c.ids ∨ m.status = .alive ∧ n = m.name := by
  simp only [reconcileMember] at h
  cases hp : isServer parseIP m with
  | none => exact .inl (by simpa [hp] using h)
  | some p =>
    simp only [hp] at h
    by_cases hregion : p.region = a.region
    · rw [if_neg (not_not.2 hregion)] at h
      cases hstatus : m.status with
      | alive =>
        rw [hstatus] at h
        exact (mem_ids_addRaftPeer h).imp_right fun hn => ⟨rfl, hn.trans (id_of_isServer hp)⟩
      | left =>
        rw [hstatus] at h
        exact .inl (mem_ids_removeRaftPeer.1 h).1
      | none | leaving | failed | reap => rw [hstatus] at h; exact .inl h
    · rw [if_pos hregion] at h
      exact .inl h

/-- The member has left or was reaped. -/
def Gone (m : Serf.Member) : Prop := m.status = .left ∨ m.status = .reap

/-- **Handling a server that is gone** takes it out of the configuration if and only if it is
removable. -/
theorem mem_ids_reconcileMember_of_gone {members : List Serf.Member} {m : Serf.Member}
    {p : ServerParts} (hp : isServer parseIP m = some p) (hgone : Gone m) (c : RaftConfiguration) :
    m.name ∈ (reconcileMember parseIP fold a members m c).ids ↔
      m.name ∈ c.ids ∧ ¬Removable fold a m p := by
  simp only [reconcileMember, hp, Removable]
  by_cases hregion : p.region = a.region
  · rw [if_neg (not_not.2 hregion)]
    rcases hgone with hstatus | hstatus
    · simp [hstatus, hregion, mem_ids_removeRaftPeer, id_of_isServer hp]
    · simp [hstatus]
  · simp [hregion]

/-! ## The queue -/

theorem gone_of_mem_queueMembers {isReap : Bool} {room : ℕ → Bool} {ms queue : List Serf.Member}
    (hms : isReap = false → ∀ m ∈ ms, m.status = .left) (hqueue : ∀ m ∈ queue, Gone m)
    {m : Serf.Member} (hm : m ∈ queueMembers a isReap room ms queue) : Gone m := by
  induction ms generalizing queue with
  | nil => exact hqueue m hm
  | cons m' ms ih =>
    refine ih (fun hreap m hm => hms hreap m (List.mem_cons_of_mem m' hm)) ?_ hm
    have hm' : Gone (queuedMember isReap m') := by
      cases isReap with
      | true => exact .inr rfl
      | false => exact .inl (hms rfl m' List.mem_cons_self)
    split_ifs
    · intro n hn
      rcases List.mem_append.1 hn with hn | hn
      · exact hqueue n hn
      · rw [List.mem_singleton.1 hn]
        exact hm'
    · exact hqueue

/-- Only members that are gone are in the queue. -/
def QueueGone (s : State) : Prop := ∀ m ∈ s.queue, Gone m

theorem queueGone_step (s : State) (e : Event) (hs : QueueGone s) :
    QueueGone (step parseIP fold a s e) := by
  cases e with
  | memberEvent me room =>
    intro m hm
    simp only [step, localMemberEvent] at hm
    split_ifs at hm
    · exact hs m hm
    · refine gone_of_mem_queueMembers (fun hreap => me.left_of_leave ?_) hs hm
      cases htype : me.eventType with
      | leave => rfl
      | reap => simp [htype] at hreap
  | handle members =>
    intro m hm
    cases hq : s.queue with
    | nil => simp [step, hq] at hm
    | cons m' queue =>
      simp only [step, hq] at hm
      exact hs m (by rw [hq]; exact List.mem_cons_of_mem m' hm)

/-- **The step.** A server that is gone stays out of the configuration if and only if the server
that is handled is removable. -/
theorem departed_step_iff (s : State) (e : Event) (hs : QueueGone s) (hd : Departed parseIP a s) :
    Departed parseIP a (step parseIP fold a s e) ↔ HandlesRemovable parseIP fold a s e := by
  cases e with
  | memberEvent me room => exact iff_of_true hd trivial
  | handle members =>
    cases hq : s.queue with
    | nil => exact iff_of_true (by simpa [step, hq] using hd) (by simp [HandlesRemovable, hq])
    | cons m queue =>
      have hgone : Gone m := hs m (by rw [hq]; exact List.mem_cons_self)
      have hkept : ∀ m' ∈ s.handled, (isServer parseIP m').isSome → m'.name ≠ a.nodeName →
          m'.name ∉ (reconcileMember parseIP fold a members m s.configuration).ids := by
        intro m' hm' hserver hname hin
        rcases mem_ids_reconcileMember hin with hin | ⟨halive, -⟩
        · exact hd m' hm' hserver hname hin
        · rcases hgone with hleft | hreap <;> simp_all
      have hnew : Departed parseIP a (step parseIP fold a s (.handle members)) ↔
          ((isServer parseIP m).isSome → m.name ≠ a.nodeName →
            m.name ∉ (reconcileMember parseIP fold a members m s.configuration).ids) := by
        simp only [Departed, step, hq, List.forall_mem_append, List.forall_mem_singleton]
        exact and_iff_right hkept
      rw [hnew]
      cases hp : isServer parseIP m with
      | none => simp [HandlesRemovable, hq, hp]
      | some p =>
        simp [HandlesRemovable, hq, hp, mem_ids_reconcileMember_of_gone hp hgone]

end RaftPeers

open RaftPeers

/-- **When departed servers leave the configuration.** In every state of a run the servers that
were handled as gone are out of the configuration, the leader apart, if and only if every one that
is handled while it is in the configuration has left (it was not reaped), is of the leader's
region, and has a name that differs from the leader's in more than letter case. -/
theorem departed_everywhere_iff (parseIP : String → Option IP) (fold : Char → Char) (a : Agent)
    (c : RaftConfiguration) (events : List RaftPeers.Event) :
    Runs.Everywhere (step parseIP fold a) (Departed parseIP a) ⟨c, [], []⟩ events ↔
      Runs.Along (step parseIP fold a) (HandlesRemovable parseIP fold a) ⟨c, [], []⟩ events :=
  Runs.everywhere_iff_along queueGone_step departed_step_iff (by simp [QueueGone])
    (by simp [Departed])

namespace RaftPeers

/-- A member that is a server of the region `global`. -/
def globalServer (name : String) (status : Serf.MemberStatus) : Serf.Member :=
  ⟨name, [10, 0, 0, 1], [("role", "dkron"), ("server", "true"), ("region", "global"),
    ("port", "6868")], status⟩

/-- The leader `a` and the server `b`. -/
def twoVoters : RaftConfiguration :=
  ⟨[⟨"a", ⟨[10, 0, 0, 1], 6868⟩⟩, ⟨"b", ⟨[10, 0, 0, 2], 6868⟩⟩], by decide⟩

/-- The failed server `b` is reaped. -/
def reapB : MemberEvent := ⟨.reap, [globalServer "b" .failed], fun h => absurd h (by decide)⟩

/-- A reaped server is handled and stays in the configuration. -/
theorem reaped_server_stays :
    ¬Runs.Everywhere (step (fun _ => none) Char.toLower ⟨"a", "global", true, true, true⟩)
      (Departed (fun _ => none) ⟨"a", "global", true, true, true⟩) ⟨twoVoters, [], []⟩
      [.memberEvent reapB fun n => n < 32, .handle []] := by
  intro h
  exact h.last (globalServer "b" .reap) (by decide) (by decide) (by decide) (by decide)

/-- With the channel as the agent leaves it, no member is ever handled. -/
theorem configuration_of_nil_channel (parseIP : String → Option IP) (fold : Char → Char)
    {a : Agent} (ha : a.reconcileCh = false) (c : RaftConfiguration) (events : List Event) :
    (events.foldl (step parseIP fold a) ⟨c, [], []⟩).configuration = c := by
  have hqueue : ∀ isReap room ms, queueMembers a isReap room ms [] = [] := by
    intro isReap room ms
    induction ms with
    | nil => rfl
    | cons m ms ih => simpa [queueMembers, ha] using ih
  rw [Runs.run_eq_self]
  intro e _
  cases e with
  | memberEvent me room => simp [step, localMemberEvent, hqueue]
  | handle members => rfl

end RaftPeers

end Dkron
