import WireCommand.Threaded.Limits
import WireCommand.Uds.Isolation

/-!
# The input limit is never met

All three servers bound the input buffer of a connection by the length of the longest request, and
give the connection up when a read finds the buffer full. None ever does. A server takes every whole
request out of the buffer before it reads again, and what is then left is shorter than the frame it
begins, whatever bytes the peer sends and however they are cut.
-/

namespace WireCommand

/-- A server is about to read at most `readSize` bytes into this buffer: `wc_uds_read_client`,
`wc_tcp_read_client` or `wc_threaded_uds_read` has been called, or goes around its loop. -/
inductive AboutToRead (host : Host) : Buffer → Nat → Prop
  | uds {s : Uds.State} {entry : Uds.PollEntry} {listener : Revents} {todo : List Uds.PollEntry}
      (hs : (Uds.server host).Reachable s) (hpc : s.pc = .visiting .read entry listener todo) :
      AboutToRead host (s.world.clients entry.slot).input Uds.readSize
  | tcp {s : Threaded.Session.State} {revents : Revents}
      (hs : (Threaded.tcpWorkerMain host).Reachable s) (hpc : s.pc = .reading revents) :
      AboutToRead host s.input Threaded.tcp.readSize
  | threadedUds {s : Threaded.Session.State} {revents : Revents}
      (hs : (Threaded.threadedUdsWorkerMain host).Reachable s) (hpc : s.pc = .reading revents) :
      AboutToRead host s.input Threaded.threadedUds.readSize

/-- A client of the poll server that is about to be read has room. -/
theorem Uds.hasRoom_of_visiting {host : Host} {s : State} (hs : (server host).Reachable s)
    {entry : PollEntry} {listener : Revents} {todo : List PollEntry}
    (hpc : s.pc = .visiting .read entry listener todo) :
    HasRoom (s.world.clients entry.slot).input readSize := by
  obtain ⟨hworld, hvisit⟩ := valid_of_reachable hs
  rw [hpc] at hvisit
  have hok := hworld.client entry.slot hvisit.1.1
  exact hasRoom_of_needMore (by decide) hok.input_limit hok.parsed

/-- **The input limit never ends a connection.** Whenever a server is about to read, the input
buffer holds less than a longest request, the number of bytes to read is not zero, and appending
what is read fails for want of memory alone. -/
theorem input_limit_unmet {host : Host} {input : Buffer} {readSize : Nat}
    (h : AboutToRead host input readSize) :
    input.length < 65535 ∧ input.nextReadSize readSize ≠ 0 ∧
      ∀ bytes reallocOk e, bytes.length ≤ input.nextReadSize readSize →
        input.append bytes reallocOk = .error e → e = .enomem ∧ reallocOk = false := by
  have hroom : HasRoom input readSize := by
    cases h with
    | uds hs hpc => exact Uds.hasRoom_of_visiting hs hpc
    | tcp hs hpc => exact Threaded.Session.hasRoom_of_reading .tcp hs hpc
    | threadedUds hs hpc => exact Threaded.Session.hasRoom_of_reading .threadedUds hs hpc
  exact ⟨hroom.length_lt, hroom.readSize_ne, hroom.append⟩

/-- A client of the poll server has sent a part of a `PWD` request, which is read. -/
def partialRead : List Uds.Event :=
  Uds.connectRound ++ Uds.idleRound ++
    [.poll (.ready .none [.readable]), .tick, .read (.data [0, 6, 0, 2]) .fair true]

/-- A worker has read a part of a `PWD` request, and there is more. -/
def partialRound : List Threaded.Session.Event :=
  Threaded.Session.round [.poll (.ready .readable), .read (.data [0, 6, 0, 2]) true, .tick] ++
  Threaded.Session.round [.poll (.ready .readable)]

/-- The poll server and a TCP worker are about to read the rest of a request. -/
theorem input_limit_unmet_run :
    (∃ input, AboutToRead plainHost input Uds.readSize ∧ input.data = [0, 6, 0, 2] ∧
      input.nextReadSize Uds.readSize ≠ 0) ∧
    ∃ input, AboutToRead plainHost input Threaded.tcp.readSize ∧ input.data = [0, 6, 0, 2] ∧
      input.nextReadSize Threaded.tcp.readSize ≠ 0 := by
  constructor
  · obtain ⟨s, hs, htest⟩ := Uds.server_reaches plainHost partialRead
      (fun s => decide (s.pc.readSlot = some Uds.slot0) &&
        decide ((s.world.clients Uds.slot0).input.data = [0, 6, 0, 2])) (by decide +kernel)
    simp only [Bool.and_eq_true, decide_eq_true_eq] at htest
    obtain ⟨hslot, hinput⟩ := htest
    obtain ⟨entry, listener, todo, hpc, hentry⟩ := Uds.readSlot_eq_some hslot
    have hread : AboutToRead plainHost _ Uds.readSize := .uds hs hpc
    exact ⟨_, hread, by rw [hentry, hinput], (input_limit_unmet hread).2.1⟩
  · obtain ⟨s, hs, htest⟩ := Threaded.Session.tcpWorker_reaches plainHost partialRound
      (fun s => decide (s.pc = .reading .readable) && decide (s.input.data = [0, 6, 0, 2]))
      (by decide +kernel)
    simp only [Bool.and_eq_true, decide_eq_true_eq] at htest
    obtain ⟨hpc, hinput⟩ := htest
    have hread : AboutToRead plainHost _ Threaded.tcp.readSize := .tcp hs hpc
    exact ⟨_, hread, hinput, (input_limit_unmet hread).2.1⟩

end WireCommand
