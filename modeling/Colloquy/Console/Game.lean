import Colloquy.Console.Screen
import Colloquy.Console.Typed
import Colloquy.Host.Table
import Colloquy.Session.Basic

/-!
# Games at the terminal

Scripts are played at a terminal against a host of zeros: variables start at the zero of their kind,
calls are echoed and return the zero of theirs, and awaited calls are answered by the player.  A game
goes from one question to the next, and the end of the input ends it.
-/

namespace Colloquy.Console

/-- A playthrough at the terminal. -/
structure Game where
  session : Session
  host : TableHost
  registry : Registry

/-- Where a game stands: over with an exit code, at a question, or still busy after the limit on its
statements.  The output comes first. -/
inductive Turn where
  | stop (exit : Nat) (output : String)
  | ask (output : String) (game : Game)
  | busy

/-- Add a function that answers with zeros, or awaits the player. -/
def addFunction (m : TableHost) (f : FunctionDecl) : TableHost :=
  if f.awaitable then m.withAwaitable f fun _ _ => .ok .pending
  else m.withFunction f fun _ _ => .ok (.zero f.returns)

/-- The host of zeros for a registry. -/
def zeroHost (r : Registry) : TableHost :=
  let m := r.variableDecls.values.foldl (fun m v => m.withVariable v.name (.zero v.kind)) .empty
  r.functions.values.foldl addFunction m

namespace Game

/-- The kind of the result that is awaited. -/
def awaitedKind (g : Game) (function : String) : Kind :=
  match g.registry.findFunction? function with
  | some f => f.returns
  | none => .void

/-- The question for the result of a call. -/
def callPrompt (g : Game) : String :=
  let function := g.session.pendingFunction.getD ""
  function ++ " returns " ++ (g.awaitedKind function).name ++ " = "

/-- Ask what the session waits for, after some output. -/
def question (g : Game) (output : String) : Turn :=
  match g.session.status with
  | .running => .ask output g
  | .awaitingChoice => .ask (output ++ "> ") g
  | .awaitingCall => .ask (output ++ g.callPrompt) g
  | .idle | .ended => .stop 0 output

/-- The calls among requests that made a function run, as echoed. -/
def echo (m : TableHost) (log : List Request) : String :=
  String.join ((log.filter m.enters).map fun
    | .call name args | .await name args => renderCall name args
    | _ => "")

/-- Play on to the next question.  A fault is the end of the game. -/
def play (limit : Nat) (g : Game) : Turn :=
  match g.session.advance TableHost.host.recorded limit (g.host, []) with
  | none => .busy
  | some (.error _, _, host, log) => .stop 1 (echo host log)
  | some (.ok events, session, host, log) =>
    { g with session := session.recycle events, host }.question
      (echo host log ++ String.join (events.items.map renderEvent))

/-- Start a script at a section. -/
def start (limit : Nat) (script : Script) (registry : Registry) (entry : String) : Turn :=
  match Session.ofScript script with
  | .error _ => .stop 1 ""
  | .ok session =>
    match session.start entry with
    | (.error _, _) => .stop 1 ""
    | (.ok (), session) => play limit ⟨session, zeroHost registry, registry⟩

/-- Answer the question with a line. -/
def answer (limit : Nat) (g : Game) (line : String) : Turn :=
  match g.session.status with
  | .running => g.play limit
  | .awaitingChoice =>
    match choiceIndex? line with
    | none => g.question "Enter the number of a choice\n"
    | some index =>
      match g.session.select index with
      | (.error e, session) => { g with session }.question (renderRefusal e.message)
      | (.ok (), session) => { g with session }.play limit
  | .awaitingCall =>
    let value := callResult (g.awaitedKind (g.session.pendingFunction.getD "")) line
    match g.session.complete (.ok value) with
    | (.error _, _) => .stop 1 ""
    | (.ok (), session) => { g with session }.play limit
  | .idle | .ended => .stop 0 ""

end Game

/-- The exit code and the output of a game with the lines of its input. -/
def Turn.run (limit : Nat) : Turn → List String → Option (Nat × String)
  | .stop exit output, _ => some (exit, output)
  | .ask output _, [] => some (0, output)
  | .ask output game, line :: lines =>
    (run limit (game.answer limit (typed line)) lines).map fun (exit, rest) => (exit, output ++ rest)
  | .busy, _ => none

end Colloquy.Console
