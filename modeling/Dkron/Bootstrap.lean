import Dkron.Lib.Runs
import Dkron.Servers

/-!
# Bootstrapping

`maybeBootstrap` of `dkron/serf.go`. A server that expects a cluster of a given size scans the
members, asks every server of its region for the Raft peers it knows, and calls `BootstrapCluster`
when none reports any.

Each server is asked up to six times. A server that fails all six times leaves the list of its
peers empty, which is what a server without peers does.

Main results: `maybeBootstrap_bootstraps_iff` says when the cluster is bootstrapped,
`maybeBootstrap_safe_iff` when that is safe, and `Bootstrapper.calls_le_one` that it
happens at most once.
-/

namespace Dkron

/-- `maxPeerRetries`. -/
def maxPeerRetries : ℕ := 6

/-- The ids of the Raft peers in a `RaftGetConfigurationResponse`, or an error. -/
abbrev PeerAnswer := Except String (List String)

/-- What happens to one call of the client: the connection, and the reply to the request. -/
structure PeerCall where
  connect : Except String Unit
  reply : PeerAnswer

/-- `RaftGetConfiguration` of the client. -/
def raftGetConfiguration (c : PeerCall) : PeerAnswer :=
  match c.connect with
  | .error e => .error e
  | .ok () => c.reply

/-- One query: the server asked by its place in the list, the address, and the answer. -/
structure PeerQuery where
  server : ℕ
  addr : TCPAddr
  answer : PeerAnswer

/-- What one call of `maybeBootstrap` leaves: `BootstrapExpect`, the queries made, and the
configuration `BootstrapCluster` was called with. -/
structure BootstrapOutcome where
  expect : Int
  queries : List PeerQuery := []
  configuration : Option (List RaftServer) := none

namespace Bootstrap

variable (parseIP : String → Option IP) (region : String) (expect : Int)

/-- The scan of the members: the number of voters and the servers of the region, unless one of
them stops it. -/
def scan : List Serf.Member → ℕ → List ServerParts → Option (ℕ × List ServerParts)
  | [], voters, servers => some (voters, servers)
  | member :: members, voters, servers =>
    match isServer parseIP member with
    | none => scan members voters servers
    | some p =>
      if p.region ≠ region then scan members voters servers
      else if p.expect ≠ 0 ∧ p.expect ≠ expect then none
      else if p.bootstrap then none
      else scan members (voters + 1) (servers ++ [p])

/-- The attempts left for one server: the answers it gives, and the peers it reports. -/
def askServer (ask : ℕ → PeerCall) : List ℕ → List PeerAnswer × List String
  | [] => ([], [])
  | attempt :: rest =>
    match raftGetConfiguration (ask attempt) with
    | .ok peers => ([.ok peers], peers)
    | .error e => (.error e :: (askServer ask rest).1, (askServer ask rest).2)

/-- The loop over the servers from place `i` on: the queries made, and whether one reported
peers. -/
def askServers (ask : ℕ → ℕ → PeerCall) : ℕ → List ServerParts → List PeerQuery × Bool
  | _, [] => ([], false)
  | i, server :: servers =>
    let (answers, peers) := askServer (ask i) (List.range maxPeerRetries)
    let queries := answers.map fun answer => ⟨i, server.rpcAddr, answer⟩
    if peers ≠ [] then (queries, true)
    else (queries ++ (askServers ask (i + 1) servers).1, (askServers ask (i + 1) servers).2)

/-- The configuration `BootstrapCluster` is called with. -/
def configurationOf (servers : List ServerParts) : List RaftServer :=
  servers.map fun server => ⟨server.id, server.addr⟩

end Bootstrap

open Bootstrap

section

variable (parseIP : String → Option IP) (region : String)

/-- `maybeBootstrap`, with the last index of the log, the members, and what happens to each
attempt at the server in each place. -/
def maybeBootstrap (lastIndex : Except String ℕ) (members : List Serf.Member)
    (ask : ℕ → ℕ → PeerCall) (expect : Int) : BootstrapOutcome :=
  match lastIndex with
  | .error _ => ⟨expect, [], none⟩
  | .ok index =>
    if index ≠ 0 then ⟨0, [], none⟩
    else
      match scan parseIP region expect members 0 [] with
      | none => ⟨expect, [], none⟩
      | some (voters, servers) =>
        if (voters : Int) < expect then ⟨expect, [], none⟩
        else
          match askServers ask 0 servers with
          | (queries, true) => ⟨0, queries, none⟩
          | (queries, false) => ⟨0, queries, some (configurationOf servers)⟩

/-- The servers of the region among the members. -/
def regionServers (members : List Serf.Member) : List ServerParts :=
  (members.filterMap (isServer parseIP)).filter fun p => p.region = region

/-- The server expects a cluster of another size. -/
def ServerParts.Conflicts (p : ServerParts) (expect : Int) : Prop :=
  p.expect ≠ 0 ∧ p.expect ≠ expect

instance (p : ServerParts) (expect : Int) : Decidable (p.Conflicts expect) :=
  inferInstanceAs (Decidable (_ ∧ _))

/-- The gates before the first query: the log is empty, enough servers are known, and none
conflicts or has the bootstrap flag. -/
structure Eligible (lastIndex : Except String ℕ) (members : List Serf.Member) (expect : Int) :
    Prop where
  empty : lastIndex = .ok 0
  agree : ∀ p ∈ regionServers parseIP region members, ¬p.Conflicts expect
  noFlag : ∀ p ∈ regionServers parseIP region members, p.bootstrap = false
  enough : expect ≤ (regionServers parseIP region members).length

/-- Each of `n` servers answered a query, with an empty list of peers. -/
def AllAnsweredEmpty (n : ℕ) (queries : List PeerQuery) : Prop :=
  ∀ i < n, ∃ q ∈ queries, q.server = i ∧ q.answer = .ok []

/-- The outcome is safe: the cluster is bootstrapped only through all the gates, and after every
server has answered. -/
def BootstrapOutcome.Safe (lastIndex : Except String ℕ) (members : List Serf.Member) (expect : Int)
    (o : BootstrapOutcome) : Prop :=
  o.configuration.isSome → Eligible parseIP region lastIndex members expect ∧
    AllAnsweredEmpty (regionServers parseIP region members).length o.queries

end

/-- The peers one call brings back, unless it fails. -/
def PeerCall.peers (c : PeerCall) : Option (List String) := (raftGetConfiguration c).toOption

/-- What the first attempt at a server that does not fail brings back. -/
def firstAnswer (ask : ℕ → PeerCall) : Option (List String) :=
  (List.range maxPeerRetries).findSome? fun attempt => (ask attempt).peers

/-- The server reports peers in the first attempt it does not fail. -/
def Reports (ask : ℕ → PeerCall) : Prop := ∃ peers, firstAnswer ask = some peers ∧ peers ≠ []

/-- The server answers one of the attempts. -/
def Answers (ask : ℕ → PeerCall) : Prop :=
  ∃ attempt < maxPeerRetries, (raftGetConfiguration (ask attempt)).isOk

namespace Bootstrap

variable {parseIP : String → Option IP} {region : String} {expect : Int}

/-! ## The scan -/

theorem regionServers_cons_none {m : Serf.Member} {ms : List Serf.Member}
    (h : isServer parseIP m = none) :
    regionServers parseIP region (m :: ms) = regionServers parseIP region ms := by
  simp [regionServers, h]

theorem regionServers_cons_some {m : Serf.Member} {ms : List Serf.Member} {p : ServerParts}
    (h : isServer parseIP m = some p) :
    regionServers parseIP region (m :: ms) =
      if p.region = region then p :: regionServers parseIP region ms
      else regionServers parseIP region ms := by
  simp [regionServers, h, List.filter_cons]

/-- A scan that goes through counts and collects the servers of the region. -/
theorem scan_eq_some_iff {members : List Serf.Member} {voters : ℕ} {servers : List ServerParts}
    {r : ℕ × List ServerParts} :
    scan parseIP region expect members voters servers = some r ↔
      (∀ p ∈ regionServers parseIP region members,
        ¬p.Conflicts expect ∧ p.bootstrap = false) ∧
      r = (voters + (regionServers parseIP region members).length,
        servers ++ regionServers parseIP region members) := by
  induction members generalizing voters servers with
  | nil => simp only [scan, Option.some.injEq]; simp [regionServers, eq_comm (a := r)]
  | cons m members ih =>
    cases hm : isServer parseIP m with
    | none => simp only [scan, hm, ih, regionServers_cons_none hm]
    | some p =>
      rw [regionServers_cons_some hm]
      simp only [scan, hm]
      by_cases hregion : p.region = region
      · rw [if_neg (not_not.2 hregion), if_pos hregion]
        by_cases hconflict : p.expect ≠ 0 ∧ p.expect ≠ expect
        · simp [hconflict, ServerParts.Conflicts]
        · cases hboot : p.bootstrap with
          | true => simp [hboot]
          | false =>
            have hok : ¬p.Conflicts expect ∧ p.bootstrap = false := ⟨hconflict, hboot⟩
            rw [if_neg hconflict, if_neg Bool.false_ne_true, ih]
            simp [hok, Nat.add_assoc, Nat.add_comm 1]
      · rw [if_pos hregion, if_neg hregion, ih]

/-! ## The queries -/

variable {ask : ℕ → ℕ → PeerCall}

theorem askServer_snd (ask : ℕ → PeerCall) (ks : List ℕ) :
    (askServer ask ks).2 = (ks.findSome? fun k => (ask k).peers).getD [] := by
  induction ks with
  | nil => rfl
  | cons k ks ih =>
    cases hk : raftGetConfiguration (ask k) with
    | ok peers => simp [askServer, PeerCall.peers, hk, Except.toOption]
    | error e => simp [askServer, PeerCall.peers, hk, Except.toOption, ih]

theorem ok_nil_mem_askServer (ask : ℕ → PeerCall) (ks : List ℕ) :
    .ok [] ∈ (askServer ask ks).1 ↔ (ks.findSome? fun k => (ask k).peers) = some [] := by
  induction ks with
  | nil => simp [askServer]
  | cons k ks ih =>
    cases hk : raftGetConfiguration (ask k) with
    | ok peers => simp [askServer, PeerCall.peers, hk, Except.toOption, eq_comm]
    | error e => simp [askServer, PeerCall.peers, hk, Except.toOption, ih]

/-- The peers a server is taken to have. A server that never answers has none. -/
theorem peers_ne_nil_iff (ask : ℕ → PeerCall) :
    (askServer ask (List.range maxPeerRetries)).2 ≠ [] ↔ Reports ask := by
  rw [askServer_snd, Reports, firstAnswer]
  cases (List.range maxPeerRetries).findSome? fun k => (ask k).peers <;> simp

theorem answers_iff (ask : ℕ → PeerCall) :
    Answers ask ↔ ∃ peers, firstAnswer ask = some peers := by
  rw [← Option.isSome_iff_exists, firstAnswer, List.findSome?_isSome_iff]
  refine exists_congr fun attempt => and_congr List.mem_range.symm ?_
  simp only [PeerCall.peers]
  cases raftGetConfiguration (ask attempt) <;> simp [Except.isOk, Except.toBool, Except.toOption]

/-- A server that reports no peers answered with an empty list, or never. -/
theorem firstAnswer_eq_nil_iff {ask : ℕ → PeerCall} (h : ¬Reports ask) :
    firstAnswer ask = some [] ↔ Answers ask := by
  rw [answers_iff]
  constructor
  · exact fun hnil => ⟨[], hnil⟩
  · rintro ⟨peers, hpeers⟩
    by_cases hp : peers = []
    · rw [hpeers, hp]
    · exact absurd ⟨peers, hpeers, hp⟩ h

/-- The queries of one server are answered with an empty list if and only if the first answer it
gives is empty. -/
theorem answered_server_iff (ask : ℕ → PeerCall) (i : ℕ) (addr : TCPAddr) :
    (∃ q ∈ (askServer ask (List.range maxPeerRetries)).1.map fun a => PeerQuery.mk i addr a,
      q.server = i ∧ q.answer = .ok []) ↔ firstAnswer ask = some [] := by
  rw [firstAnswer, ← ok_nil_mem_askServer]
  simp

/-- The loop finds peers if and only if one of the servers reports some. -/
theorem askServers_snd (i : ℕ) (servers : List ServerParts) :
    (askServers ask i servers).2 = true ↔ ∃ j < servers.length, Reports (ask (i + j)) := by
  induction servers generalizing i with
  | nil => simp [askServers]
  | cons server servers ih =>
    simp only [askServers]
    rw [List.length_cons, Nat.exists_lt_succ_left]
    by_cases hpeers : (askServer (ask i) (List.range maxPeerRetries)).2 ≠ []
    · rw [if_pos hpeers]
      exact iff_of_true rfl (.inl ((peers_ne_nil_iff _).1 hpeers))
    · rw [if_neg hpeers, ih]
      rw [peers_ne_nil_iff] at hpeers
      simp [hpeers, Nat.add_assoc, Nat.add_comm 1]

theorem le_server_of_mem {i : ℕ} {servers : List ServerParts} {q : PeerQuery}
    (hq : q ∈ (askServers ask i servers).1) : i ≤ q.server := by
  induction servers generalizing i with
  | nil => simp [askServers] at hq
  | cons server servers ih =>
    simp only [askServers] at hq
    split_ifs at hq
    · obtain ⟨a, -, rfl⟩ := List.mem_map.1 hq
      exact le_rfl
    · rcases List.mem_append.1 hq with hq | hq
      · obtain ⟨a, -, rfl⟩ := List.mem_map.1 hq
        exact le_rfl
      · exact (Nat.le_succ i).trans (ih hq)

/-- When no server reports peers, the loop has an empty answer from each server that answers. -/
theorem answered_iff (i : ℕ) (servers : List ServerParts)
    (h : ∀ j < servers.length, ¬Reports (ask (i + j))) {j : ℕ} (hj : j < servers.length) :
    (∃ q ∈ (askServers ask i servers).1, q.server = i + j ∧ q.answer = .ok []) ↔
      Answers (ask (i + j)) := by
  induction servers generalizing i j with
  | nil => exact absurd hj (Nat.not_lt_zero j)
  | cons server servers ih =>
    have hhead : ¬Reports (ask i) := h 0 (Nat.succ_pos _)
    have htail : ∀ j < servers.length, ¬Reports (ask (i + 1 + j)) := fun j hj => by
      rw [Nat.add_right_comm, Nat.add_assoc]
      exact h (j + 1) (Nat.succ_lt_succ hj)
    have hpeers := mt (peers_ne_nil_iff (ask i)).1 hhead
    simp only [askServers, if_neg hpeers, List.mem_append, or_and_right, exists_or]
    cases j with
    | zero =>
      rw [Nat.add_zero, ← firstAnswer_eq_nil_iff hhead,
        ← answered_server_iff (ask i) i server.rpcAddr]
      apply or_iff_left
      rintro ⟨q, hq, hi, -⟩
      exact absurd (le_server_of_mem hq) (by omega)
    | succ j =>
      rw [← Nat.add_assoc, Nat.add_right_comm, ← ih (i + 1) htail (Nat.lt_of_succ_lt_succ hj)]
      apply or_iff_right
      rintro ⟨q, hq, hi, -⟩
      obtain ⟨a, -, rfl⟩ := List.mem_map.1 hq
      exact absurd hi (by simp; omega)

/-! ## The decision -/

variable {lastIndex : Except String ℕ} {members : List Serf.Member}

/-- A scan that counts enough voters has passed every gate but the log's. -/
theorem eligible_iff :
    Eligible parseIP region lastIndex members expect ↔ lastIndex = .ok 0 ∧
      scan parseIP region expect members 0 [] =
        some ((regionServers parseIP region members).length,
          regionServers parseIP region members) ∧
      expect ≤ (regionServers parseIP region members).length := by
  rw [scan_eq_some_iff]
  constructor
  · exact fun h => ⟨h.empty, ⟨fun p hp => ⟨h.agree p hp, h.noFlag p hp⟩, by simp⟩, h.enough⟩
  · rintro ⟨hempty, ⟨hgates, -⟩, henough⟩
    exact ⟨hempty, fun p hp => (hgates p hp).1, fun p hp => (hgates p hp).2, henough⟩

/-- What a server that passes the gates does: it makes the queries, and bootstraps unless they
find peers. -/
theorem maybeBootstrap_of_eligible (h : Eligible parseIP region lastIndex members expect) :
    maybeBootstrap parseIP region lastIndex members ask expect =
      let asked := askServers ask 0 (regionServers parseIP region members)
      ⟨0, asked.1, if asked.2 then none
        else some (configurationOf (regionServers parseIP region members))⟩ := by
  obtain ⟨rfl, hscan, henough⟩ := eligible_iff.1 h
  simp only [maybeBootstrap, hscan]
  rw [if_neg (by simp), if_neg (not_lt.2 henough)]
  cases hasked : askServers ask 0 (regionServers parseIP region members) with
  | mk queries found => cases found <;> rfl

/-- A server that fails a gate does not bootstrap. -/
theorem configuration_of_not_eligible (h : ¬Eligible parseIP region lastIndex members expect) :
    (maybeBootstrap parseIP region lastIndex members ask expect).configuration = none := by
  cases lastIndex with
  | error e => rfl
  | ok index =>
    simp only [maybeBootstrap]
    split_ifs with hindex
    · rfl
    · cases hscan : scan parseIP region expect members 0 [] with
      | none => rfl
      | some r =>
        obtain ⟨-, rfl⟩ := id (scan_eq_some_iff.1 hscan)
        simp only
        split_ifs with hvoters
        · rfl
        · refine absurd (eligible_iff.2 ⟨?_, ?_, ?_⟩) h
          · rw [not_not.1 hindex]
          · simpa using hscan
          · simpa using hvoters

end Bootstrap

open Bootstrap

variable {parseIP : String → Option IP} {region : String} {lastIndex : Except String ℕ}
  {members : List Serf.Member} {ask : ℕ → ℕ → PeerCall} {expect : Int}

/-- **When the cluster is bootstrapped.** Every gate is passed, and no server reports peers. -/
theorem maybeBootstrap_bootstraps_iff :
    (maybeBootstrap parseIP region lastIndex members ask expect).configuration.isSome ↔
      Eligible parseIP region lastIndex members expect ∧
        ∀ i < (regionServers parseIP region members).length, ¬Reports (ask i) := by
  by_cases h : Eligible parseIP region lastIndex members expect
  · have hfound : (askServers ask 0 (regionServers parseIP region members)).2 = true ↔
        ∃ i < (regionServers parseIP region members).length, Reports (ask i) := by
      simpa only [Nat.zero_add] using askServers_snd 0 (regionServers parseIP region members)
    rw [maybeBootstrap_of_eligible h]
    cases hasked : (askServers ask 0 (regionServers parseIP region members)).2 with
    | true => simpa [hasked] using fun _ => hfound.1 hasked
    | false => simpa [hasked, h] using hfound
  · simp [configuration_of_not_eligible h, h]

/-- **When bootstrapping is safe.** A server that passes every gate bootstraps safely if and only
if some server reports peers, so that it does not bootstrap, or every server answers one of its
queries. -/
theorem maybeBootstrap_safe_iff :
    (maybeBootstrap parseIP region lastIndex members ask expect).Safe parseIP region lastIndex
        members expect ↔
      (Eligible parseIP region lastIndex members expect →
        (∃ i < (regionServers parseIP region members).length, Reports (ask i)) ∨
        ∀ i < (regionServers parseIP region members).length, Answers (ask i)) := by
  rw [BootstrapOutcome.Safe, maybeBootstrap_bootstraps_iff]
  by_cases hreports : ∃ i < (regionServers parseIP region members).length, Reports (ask i)
  · have hnot : ¬∀ i < (regionServers parseIP region members).length, ¬Reports (ask i) := by
      simpa using hreports
    simp [hnot, hreports]
  · have hnone : ∀ i < (regionServers parseIP region members).length, ¬Reports (ask i) := by
      simpa using hreports
    simp only [hreports, false_or, and_iff_left hnone]
    apply imp_congr_right
    intro h
    rw [maybeBootstrap_of_eligible h, and_iff_right h]
    apply forall₂_congr
    intro i hi
    have hnone' : ∀ j < (regionServers parseIP region members).length, ¬Reports (ask (0 + j)) := by
      simpa using hnone
    simpa using answered_iff 0 _ hnone' hi

/-- Three members of a region that expect a cluster of three. -/
def threeServers : List Serf.Member :=
  ["a", "b", "c"].map fun name =>
    ⟨name, [10, 0, 0, 1], [("role", "dkron"), ("server", "true"), ("region", "global"),
      ("expect", "3"), ("port", "6868")], .alive⟩

/-- The first two servers know no peers, and the third one cannot be reached. -/
def thirdUnreachable (i _attempt : ℕ) : PeerCall :=
  if i < 2 then ⟨.ok (), .ok []⟩ else ⟨.error "connection refused", .ok []⟩

/-- The cluster is bootstrapped without a word from the third server. -/
theorem unanswered_bootstrap :
    ¬(maybeBootstrap (fun _ => none) "global" (.ok 0) threeServers thirdUnreachable 3).Safe
      (fun _ => none) "global" (.ok 0) threeServers 3 := by
  intro hsafe
  obtain ⟨-, hanswered⟩ := hsafe (by decide)
  obtain ⟨q, hq, hserver, hanswer⟩ := hanswered 2 (by decide)
  have hnone : ∀ q ∈ (maybeBootstrap (fun _ => none) "global" (.ok 0) threeServers
      thirdUnreachable 3).queries, q.server = 2 → ¬q.answer.isOk := by decide
  exact hnone q hq hserver (by rw [hanswer]; rfl)

/-! ## Joins -/

/-- What a server has done since it started: the size it expects, and the configurations it has
called `BootstrapCluster` with. -/
structure Bootstrapper where
  expect : Int
  calls : List (List RaftServer) := []

/-- A server has joined: what the local server finds when it tries to bootstrap then. -/
structure ServerJoin where
  lastIndex : Except String ℕ
  members : List Serf.Member
  ask : ℕ → ℕ → PeerCall

namespace Bootstrapper

variable (parseIP : String → Option IP) (region : String)

/-- The end of `nodeJoin` for one server: a server that still expects to bootstrap tries to. -/
def joined (s : Bootstrapper) (j : ServerJoin) : Bootstrapper :=
  if s.expect ≠ 0 then
    let o := maybeBootstrap parseIP region j.lastIndex j.members j.ask s.expect
    ⟨o.expect, s.calls ++ o.configuration.toList⟩
  else s

/-- The cluster has been bootstrapped at most once, and then nothing is expected any more. -/
structure AtMostOnce (s : Bootstrapper) : Prop where
  calls_le : s.calls.length ≤ 1
  expect_eq : s.calls ≠ [] → s.expect = 0

variable {parseIP region}

theorem AtMostOnce.joined {s : Bootstrapper} (h : s.AtMostOnce) (j : ServerJoin) :
    (s.joined parseIP region j).AtMostOnce := by
  rw [Bootstrapper.joined]
  by_cases hexpect : s.expect ≠ 0
  · rw [if_pos hexpect]
    have hcalls : s.calls = [] := not_not.1 (mt h.expect_eq hexpect)
    cases ho : (maybeBootstrap parseIP region j.lastIndex j.members j.ask
        s.expect).configuration with
    | none => exact ⟨by simp [hcalls, ho], by simp [hcalls, ho]⟩
    | some servers =>
      have heligible := (maybeBootstrap_bootstraps_iff.1 (Option.isSome_of_eq_some ho)).1
      exact ⟨by simp [hcalls], fun _ => by simp [maybeBootstrap_of_eligible heligible]⟩
  · rwa [if_neg hexpect]

/-- **A server bootstraps the cluster at most once**, whoever joins and whatever it finds. -/
theorem calls_le_one (expect : Int) (joins : List ServerJoin) :
    (joins.foldl (joined parseIP region) ⟨expect, []⟩).calls.length ≤ 1 :=
  (Runs.invariant_run (I := AtMostOnce) (fun _ j h => h.joined j) ⟨by simp, by simp⟩
    joins).calls_le

end Bootstrapper

end Dkron
