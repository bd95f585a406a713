import TypeqlAssist.Editor.Engine

/-!
# Sessions

A session holds a configuration and a text. Edits replace a part of the text; a configuration that
is not valid leaves the old one in place.
-/

namespace TypeqlAssist

namespace Editor

/-- The state of a session. -/
structure Session where
  config : Config
  text : Text
  deriving Repr, Inhabited

namespace Session

/-- A session on an empty text. -/
def start (config : Config) : Session :=
  ⟨config, []⟩

/-- Replaces the whole text. -/
def setText (s : Session) (text : Text) : Session :=
  { s with text }

/-- Replaces the bytes from `start` to `stop`. -/
def edit (s : Session) (start stop : Nat) (insert : Text) : Session :=
  { s with text := s.text.slice 0 start ++ insert ++ s.text.slice stop s.text.byteSize }

/-- Replaces the configuration, if the new one is valid. -/
def configure (s : Session) (json : Text) : Except Config.Error Session :=
  match Config.ofText json with
  | .error e => .error e
  | .ok config => .ok { s with config }

end Session

end Editor

end TypeqlAssist
