import SimpleUv.TcpClient.ConnectCycles
import SimpleUv.TcpClient.Stream
import SimpleUv.TcpServer.StartCycles

/-!
# Cycles stand on their own

The status that `Connect` and `Start` wait for is written in every cycle and never reset, and the client
does not reset its flags either. So a cycle that comes after one that has waited finds its status, and the
call returns before the attempt it has begun has an outcome (`staleStatus`). The cycles stand on their own
exactly as long as the status is read when the call has seen it written, and no loop thread ends after
`Close` (`cycles_stand_iff`). The first condition is met by every call that finds nothing written
(`ConnectCycles.timely_of_dis`, `StartCycles.timely_of_dis`).
-/

namespace SimpleUv

open Foundations

/-- **When the cycles of the client and of the server stand on their own.** -/
theorem cycles_stand_iff (B : Build) (memory : List.Vector Byte bufferSize) (u : Uninit) :
    (∀ es : List (ConnectCycles.Event B),
        Always ConnectCycles.step ConnectCycles.Standing (.start B memory u) es ↔
          Along ConnectCycles.step ConnectCycles.Timely (.start B memory u) es) ∧
      ∀ es : List (StartCycles.Event B),
        Always StartCycles.step StartCycles.Standing (.start B) es ↔
          Along StartCycles.step StartCycles.Timely (.start B) es :=
  ⟨ConnectCycles.always_standing_iff memory u, StartCycles.always_standing_iff⟩

/-! ## A second cycle -/

namespace ConnectCycles

/-- The client at the beginning of the runs below. -/
def zeroCycles : ConnectCycles zeroBuild := start zeroBuild (.replicate bufferSize 0) zeroUninit

/-- The user closes the client, and the loop thread ends. -/
def closing : List (Event zeroBuild) := [.client .userClose, .client .async, .threadEnd]

/-- `Connect` succeeds, the server ends the connection, and the cycle ends. -/
def succeeded : List (Event zeroBuild) :=
  [.connect .ok, .client (.connected 0 0), .poll, .poll, .client .recvError, .client .closed] ++ closing

/-- `Connect` is refused, and the cycle ends. -/
def refused : List (Event zeroBuild) :=
  [.connect .ok, .client (.connected (-111) 0), .poll, .poll] ++ closing

/-- `Connect` is called again, and returns. -/
def again : List (Event zeroBuild) := [.connect .ok, .poll, .poll]

/-- A thread sends one byte. -/
def sendOne : List (Event zeroBuild) :=
  [.client (.call 0 (CTCPClient.oneByte 1)), .client (.send 0), .client (.send 0)]

end ConnectCycles

namespace StartCycles

/-- `Start` succeeds, and the cycle ends. -/
def succeeded : List (Event zeroBuild) :=
  [.start .ok, .startThread, .poll, .poll, .server .userClose, .server .async, .threadEnd]

/-- `Start` is called again, and returns. -/
def again : List (Event zeroBuild) := [.start .ok, .poll, .poll]

end StartCycles

/-- When the loop thread has ended, `IsClosed` is false and the user still asks for the close. The next
`Connect` returns what the one before has found, before its own attempt has an outcome, and a message is
not written. The next `Start` returns before its thread has run. -/
theorem staleStatus :
    (exec ConnectCycles.step ConnectCycles.zeroCycles ConnectCycles.succeeded).map
        (fun s => (s.ended, s.isClosed, s.client.isUserAskForClosed, s.waiting.status)) =
          some (true, false, true, .finish) ∧
      (exec ConnectCycles.step ConnectCycles.zeroCycles
        (ConnectCycles.succeeded ++ ConnectCycles.again)).map (fun s => s.waiting.returned) =
          some (some ⟨true, [], false⟩) ∧
      (exec ConnectCycles.step ConnectCycles.zeroCycles
        (ConnectCycles.refused ++ ConnectCycles.again)).map (fun s => s.waiting.returned) =
          some (some ⟨false, [], false⟩) ∧
      (exec ConnectCycles.step ConnectCycles.zeroCycles
        (ConnectCycles.succeeded ++ ConnectCycles.again ++ ConnectCycles.sendOne)).map
          (fun s => (s.client.out.senders 0).isNone && s.client.out.accepted.isEmpty) = some true ∧
      (exec StartCycles.step (.start zeroBuild)
        (StartCycles.succeeded ++ StartCycles.again)).map (fun s => s.waiting.returned) =
          some (some ⟨true, [], false⟩) ∧
      (¬ ∀ es, Always ConnectCycles.step ConnectCycles.Standing ConnectCycles.zeroCycles es) ∧
      ¬ ∀ es, Always StartCycles.step StartCycles.Standing (.start zeroBuild) es := by
  refine ⟨rfl, rfl, rfl, rfl, rfl, fun h => ?_, fun h => ?_⟩
  · have hend := (h ConnectCycles.succeeded).last (t := _) rfl
    exact absurd (hend.reset rfl).1 (by decide)
  · have hend := (h StartCycles.succeeded).last (t := _) rfl
    exact absurd (hend.reset rfl).2.2 (by decide)

end SimpleUv
