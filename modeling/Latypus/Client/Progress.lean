import Latypus.Client.Exchange
import Latypus.Lib.Ranking
import Mathlib.Data.Prod.Lex
import Mathlib.Order.WellFounded

/-! The two parties of an exchange never wait for each other: as long as the connection of the client is
open, one of them can go on, and they cannot go on forever unless requests are submitted forever. -/

namespace Latypus.Server
open Lib Io Http

namespace Session
variable {cfg : ServerConfig} {t : Bytes} {s : Session}

end Session
end Latypus.Server

namespace Latypus.Client
open Lib Io Http Server

section Progress
variable {client server : ServerConfig} {s : Exchange}

/-- The smooth events in which no worker answers. -/
def Quiet (client server : ServerConfig) (s : Exchange) (e : ExchangeEvent) : Prop :=
  (∀ reply, e ≠ .work reply) ∧ Smooth client server s e

variable {q₀ : ClientRequest}

/-- A server that can send has a response under way. -/
theorem Stage.sends (h : Stage client server s)
    (hstate : s.session.state = .serverResponse ∨ s.session.state = .serverBody) :
    ∃ S got put, s.session.Sends server.ioBufferSize S got put ∧ server.ioBufferSize + 2 * S.length < 2 ^ 63 := by
  have hlistens {t : Bytes} (hlistens : s.session.Listens server t) :
      ∃ S got put, s.session.Sends server.ioBufferSize S got put ∧ server.ioBufferSize + 2 * S.length < 2 ^ 63 := by
    cases hlistens with
    | reading state | waiting state => obtain hother | hother := hstate <;> cases state.symm.trans hother
    | sending nil sends small => exact ⟨_, _, _, sends, small⟩
  cases h with
  | processing _ _ _ _ listens | requesting _ _ _ _ _ _ listens | sent _ _ _ _ listens | closed _ _ listens =>
    exact hlistens listens
  | working _ _ _ _ works => obtain hother | hother := hstate <;> cases works.state.symm.trans hother
  | answering _ _ _ answers _ _ _ _ replies =>
    obtain ⟨put, hsends, -⟩ | ⟨-, listens⟩ := replies
    · exact ⟨_, _, _, hsends, answers.small⟩
    · exact hlistens listens

end Progress

end Latypus.Client
