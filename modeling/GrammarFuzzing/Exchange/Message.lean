import GrammarFuzzing.Exchange.Schedule
import GrammarFuzzing.Parse.Basic

/-!
# Messages on the wire

* `GrammarFuzzing.Message` – what one party sends to another;
* `GrammarFuzzing.ExchangeError` – why an exchange failed;
* `GrammarFuzzing.Transport` – a channel to the other parties. It is given by what its three
  operations do to its state, so that nothing about the other side is assumed.
-/

namespace GrammarFuzzing

/-- **A message.** -/
structure Message where
  sender : String
  recipient : Option String
  payload : Bytes
  deriving DecidableEq

/-- A time in milliseconds in words: in seconds from one second on. -/
def showMillis (ms : Nat) : String :=
  if ms = 0 then "0ns"
  else if ms < 1000 then toString ms ++ "ms"
  else
    let digits := toString (ms % 1000)
    let padded := List.replicate (3 - digits.length) '0' ++ digits.toList
    let fraction := (padded.reverse.dropWhile fun c => c == '0').reverse
    let point := if fraction.isEmpty then [] else '.' :: fraction
    toString (ms / 1000) ++ String.ofList point ++ "s"

/-- **Why an exchange failed.** -/
inductive ExchangeError
  /-- There was no message within a time. -/
  | timeout (ms : Nat)
  /-- A message arrived that is none of the packets which may come next. -/
  | unexpectedMessage (sender payload : String)
  /-- The other side went away. -/
  | disconnected
  /-- The other side failed. -/
  | endpoint (reason : String)
  /-- Nothing can continue an exchange that is not complete. -/
  | stuck (messages : Nat)
  /-- The greatest number of messages was reached before the exchange was complete. -/
  | truncated (messages : Nat)
  | schedule (error : ScheduleError)
  | grammar (error : GrammarError)
  | parse (error : ParseError)

/-- The error in words. -/
def ExchangeError.message : ExchangeError → String
  | .timeout ms => "No message within " ++ showMillis ms
  | .unexpectedMessage sender payload =>
    "Unexpected message from " ++ sender ++ ": " ++ quote payload
  | .disconnected => "Endpoint disconnected"
  | .endpoint reason => "Endpoint failed: " ++ reason
  | .stuck messages => "Exchange stuck after " ++ toString messages ++ " messages"
  | .truncated messages => "Exchange cut off after " ++ toString messages ++ " messages"
  | .schedule e => e.message
  | .grammar e => e.message
  | .parse e => e.message

/-- **A channel to the other parties**, with states `σ`. -/
structure Transport (σ : Type) where
  /-- Starts afresh, before every exchange. -/
  reset : σ → Except ExchangeError Unit × σ
  send : Message → σ → Except ExchangeError Unit × σ
  /-- The next message, if it arrives within so many milliseconds. -/
  receive : Nat → σ → Except ExchangeError Message × σ

/-- What happened on a channel. -/
inductive WireEvent
  | reset
  /-- A message was sent, whether or not that worked. -/
  | sent (message : Message)
  | received (message : Message)

/-- **The channel that also keeps a record** of what happened on it. -/
def Transport.recorded {σ : Type} (t : Transport σ) : Transport (σ × List WireEvent) where
  reset s :=
    let (r, s') := t.reset s.1
    (r, s', s.2 ++ [.reset])
  send m s :=
    let (r, s') := t.send m s.1
    (r, s', s.2 ++ [.sent m])
  receive ms s :=
    let (r, s') := t.receive ms s.1
    match r with
    | .ok m => (.ok m, s', s.2 ++ [.received m])
    | .error e => (.error e, s', s.2)

end GrammarFuzzing
