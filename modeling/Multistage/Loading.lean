import Multistage.Fault
import Multistage.Term.Codec

/-!
# Loading programs

A program is loaded from the bytes of a file. `Refusal` says why a text holds no program, `Trouble` why
there is no text, and `LoadError` puts either together with the path of the file.
-/

namespace Multistage

/-- Why a text holds no program. -/
inductive Refusal where
  /-- the text is not JSON, or not that of a term -/
  | malformed
  /-- the term uses the last identity -/
  | noRoom
  deriving DecidableEq, Inhabited, Repr

/-- What is wrong with a term that uses the last identity. Inside a file the location starts with the
path. -/
def Fault.noRoom (path : Option String) : Fault :=
  let node := "node " ++ NodeId.last.text
  .parse ((path.map (· ++ ":" ++ node)).getD node) "node id leaves no room for fresh ids"

namespace Program

/-- The program around a term. -/
def ofTerm (root : Term) : Except Refusal Program :=
  match ofTerm? root with
  | some program => .ok program
  | none => .error .noRoom

/-- Read a program from its text. -/
def ofText (text : String) : Except Refusal Program :=
  match Term.parse? text with
  | some root => ofTerm root
  | none => .error .malformed

end Program

/-- Why a file cannot be read. -/
inductive Trouble where
  | notFound
  | notDirectory
  | isDirectory
  | notText
  /-- a reason in words -/
  | other (message : String)
  deriving DecidableEq, Inhabited, Repr

/-- The reason in words. -/
def Trouble.message : Trouble → String
  | .notFound => "No such file or directory (os error 2)"
  | .notDirectory => "Not a directory (os error 20)"
  | .isDirectory => "Is a directory (os error 21)"
  | .notText => "stream did not contain valid UTF-8"
  | .other message => message

/-- Why a program cannot be loaded from a path. -/
inductive LoadError where
  | unreadable (path : String) (trouble : Trouble)
  | refused (path : String) (refusal : Refusal)
  deriving DecidableEq, Inhabited, Repr

/-- The text of an error. -/
def LoadError.message : LoadError → String
  | .unreadable path trouble => "cannot read " ++ path ++ ": " ++ trouble.message
  | .refused path .malformed => (Fault.parse path "not the text of a term").message
  | .refused path .noRoom => (Fault.noRoom (some path)).message

/-- Read a program from the bytes of a file. -/
def Program.ofBytes (path : String) (bytes : ByteArray) : Except LoadError Program :=
  match String.fromUTF8? bytes with
  | none => .error (.unreadable path .notText)
  | some text => (ofText text).mapError (.refused path)

end Multistage
