import Http1.Body.Reader
import Http1.MediaType

/-!
The body of an incoming message together with what its header fields say about it.
-/

namespace Http1

structure IncomingEntity where
  declared : Framing
  contentType : Option String
  contentEncoding : Option String
  reader : BodyReader

namespace IncomingEntity

/-- Type and encoding are copied from the header fields as they are. -/
def start (config : Config) (message : Headers) (framing : Framing) (inlet : Inlet) :
    IncomingEntity :=
  ⟨framing, message.text? .contentType, message.text? .contentEncoding,
    .start (.ofConfig config framing) inlet⟩

/-- The declared length, -1 when it is not known. -/
def contentLength (entity : IncomingEntity) : Int := entity.declared.contentLength

def isChunked (entity : IncomingEntity) : Bool := entity.declared.isChunked

/-- The content type in its normal spelling, if it is a media type. -/
def mediaType? (entity : IncomingEntity) : Option String := do
  let text ← entity.contentType
  let normal ← MediaType.normalize? (Bytes.ofAscii text)
  return Bytes.toLatin1 normal

end IncomingEntity
end Http1
