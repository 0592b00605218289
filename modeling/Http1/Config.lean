/-!
The settings of a connection.
-/

namespace Http1

/-- A buffer has room for at least one byte; absent limits mean that there is none. -/
structure Config where
  bufferSize : Nat
  chunkSizeHint : Nat
  maxLineLength : Option Nat
  maxHeaderCount : Option Nat
  bufferSize_pos : 0 < bufferSize
  deriving DecidableEq

inductive Setting
  | bufferSize (size : Nat)
  | chunkSizeHint (size : Nat)
  | maxLineLength (max : Nat)
  | maxHeaderCount (max : Nat)
  deriving DecidableEq

namespace Config

def default : Config := ⟨8192, 8192, none, none, by decide⟩

/-- A buffer size of zero asks for the default one. -/
def withBufferSize (config : Config) (size : Nat) : Config :=
  if h : 0 < size then { config with bufferSize := size, bufferSize_pos := h }
  else { config with bufferSize := default.bufferSize, bufferSize_pos := default.bufferSize_pos }

def set (config : Config) : Setting → Config
  | .bufferSize size => config.withBufferSize size
  | .chunkSizeHint size => { config with chunkSizeHint := size }
  | .maxLineLength max => { config with maxLineLength := some max }
  | .maxHeaderCount max => { config with maxHeaderCount := some max }

/-- The defaults changed by settings in order: a later one wins. -/
def ofSettings (settings : List Setting) : Config := settings.foldl set default

end Config
end Http1
