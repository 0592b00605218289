import Http1.Body.Encoder
import Http1.Outlet

/-!
Writing one message body to the outlet of a connection. The writer of a chunked body collects small
writes, so that they do not turn into tiny chunks.
-/

namespace Http1

/-- The `cache` waits for its chunk and stays below `chunkSize` bytes; a `chunkSize` of zero means
that nothing is collected. -/
structure BodyWriter where
  encoder : BodyEncoder
  cache : Bytes
  chunkSize : Nat
  outlet : Outlet

namespace BodyWriter

/-- Only chunked bodies collect writes. -/
def start (framing : Framing) (chunkSize : Nat) (outlet : Outlet) : BodyWriter :=
  ⟨.start framing, [], if framing.isChunked then chunkSize else 0, outlet⟩

def framing (writer : BodyWriter) : Framing := writer.encoder.framing

def withTrailers (writer : BodyWriter) (trailers : Headers) : BodyWriter :=
  { writer with encoder := writer.encoder.withTrailers trailers }

/-- Hands one fragment to the outlet: its lead, as much of the data as belongs to the body, and its
suffix. -/
def writeFragment (bytes : Bytes) (writer : BodyWriter) : Except SendError Unit × BodyWriter :=
  match writer.encoder.beginFragment bytes.length with
  | .error error => (.error error, writer)
  | .ok (fragment, encoder) =>
    match (writer.outlet.append fragment.lead).write (bytes.take fragment.size) with
    | (.error error, outlet) => (.error (.io error), { writer with encoder, outlet })
    | (.ok (), outlet) =>
      let (answer, outlet) := outlet.write fragment.suffix
      (answer.mapError .io, { writer with encoder, outlet })

/-- Sends the cache as one fragment. The cache is empty afterwards, even when that failed. -/
def flushCache (writer : BodyWriter) : Except SendError Unit × BodyWriter :=
  if writer.cache.isEmpty then (.ok (), writer)
  else writeFragment writer.cache { writer with cache := [] }

def keep (bytes : Bytes) (writer : BodyWriter) : BodyWriter :=
  { writer with cache := writer.cache ++ bytes }

/-- Takes all of `bytes`: into the cache while that stays below the chunk size, else as a fragment
behind the flushed cache. -/
def take (bytes : Bytes) (writer : BodyWriter) : Except SendError Unit × BodyWriter :=
  if writer.chunkSize = 0 then writer.writeFragment bytes
  else if writer.cache.length + bytes.length < writer.chunkSize then (.ok (), writer.keep bytes)
  else match writer.flushCache with
    | (.error error, writer) => (.error error, writer)
    | (.ok (), writer) =>
      if bytes.length < writer.chunkSize then (.ok (), writer.keep bytes)
      else writer.writeFragment bytes

/-- A write takes all bytes or fails. -/
def write (writer : BodyWriter) (bytes : Bytes) : Except IoError Nat × BodyWriter :=
  let (answer, writer) := writer.take bytes
  ((answer.map fun _ => bytes.length).mapError SendError.toIo, writer)

/-- Writing no bytes at all is no write. -/
def writeAll (writer : BodyWriter) (bytes : Bytes) : Except IoError Unit × BodyWriter :=
  if bytes.isEmpty then (.ok (), writer)
  else
    let (answer, writer) := writer.write bytes
    (answer.map fun _ => (), writer)

def flush (writer : BodyWriter) : Except IoError Unit × BodyWriter :=
  match writer.flushCache with
  | (.error error, writer) => (.error error.toIo, writer)
  | (.ok (), writer) =>
    let (answer, outlet) := writer.outlet.flush
    (answer, { writer with outlet })

/-- Writes the cache and the end of the body and flushes the sink. The writer is used up: only its
outlet is left. -/
def finish (writer : BodyWriter) : Except SendError Unit × Outlet :=
  match writer.flushCache with
  | (.error error, writer) => (.error error, writer.outlet)
  | (.ok (), writer) =>
    match writer.encoder.finish with
    | .error error => (.error error, writer.outlet)
    | .ok (last, _) =>
      let (answer, outlet) := (writer.outlet.append last).flush
      (answer.mapError .io, outlet)

end BodyWriter
end Http1
