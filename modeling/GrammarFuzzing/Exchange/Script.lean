import GrammarFuzzing.Exchange.Endpoint

/-!
# Scripted parties

A **script** tells what the other parties do: each message is handled by the first rule that fits
it. It can be played directly, as a channel whose replies are there at once, or as the harness of an
endpoint.
-/

namespace GrammarFuzzing

/-- What a rule of a script does. -/
inductive ScriptAction
  | reply (messages : List Message)
  /-- Fails for a reason. -/
  | fail (reason : String)
  /-- Breaks down without giving a reason. -/
  | vanish
  /-- Never returns. -/
  | hang

/-- **A rule of a script**: which messages it is for, by their sender and by how they begin. -/
structure ScriptRule where
  sender : Option String
  opening : Bytes
  action : ScriptAction

/-- A script. -/
abbrev Script := List ScriptRule

namespace Script

/-- Whether a rule is for a message. -/
def fits (m : Message) (r : ScriptRule) : Bool :=
  r.opening.isPrefixOf m.payload && r.sender.all fun s => s = m.sender

/-- What a script does with a message; where no rule fits, nothing is replied. -/
def actionFor (script : Script) (m : Message) : ScriptAction :=
  ((script.find? (fits m)).map (·.action)).getD (.reply [])

/-- **The script as a harness.** -/
def harness (script : Script) (m : Message) : Option HarnessOutcome :=
  match script.actionFor m with
  | .reply messages => some (.replies messages)
  | .fail reason => some (.failed reason)
  | .vanish => some (.failed "Unknown panic type")
  | .hang => none

/-- **The script as a channel**, whose state is the messages on their way. After a reset there are
those of a greeting; a reset can also be made to fail. -/
def transport (script : Script) (greeting : List Message) (resetFails : Bool) :
    Transport (List Message) where
  reset _ := (if resetFails then .error .disconnected else .ok (), greeting)
  send m queue :=
    match script.actionFor m with
    | .reply messages => (.ok (), queue ++ messages)
    | .fail reason => (.error (.endpoint reason), queue)
    | .vanish => (.error .disconnected, queue)
    | .hang => (.error .disconnected, queue)
  receive ms queue :=
    match queue with
    | [] => (.error (.timeout ms), [])
    | m :: rest => (.ok m, rest)

end Script

end GrammarFuzzing
