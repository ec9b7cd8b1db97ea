import SwissArmyKnife.Postgresql.Frames

/-!
# The messages of a stream

Messages come in chunks, and `pqParseInput3` is called after each.  As long as each message has contents that its
handler takes, or is left for later, every call returns, and the next message is read right behind the last one
(`parseInput_synchronised`).
-/

namespace Postgresql

open PGconn

def encodeFrames (frames : List Frame) : Bytes := (frames.map Frame.encode).flatten

/-- What has not been parsed, and what has not come yet, are these messages. -/
structure PGconn.At (conn : PGconn) (frames : List Frame) (future : Bytes) : Prop where
  start : conn.inStart ≤ conn.inBuffer.length
  stream : conn.unread ++ future = encodeFrames frames

/-- The message is not parsed until the state changes. -/
def Leaves (v : View) (f : Frame) : Prop :=
  v.asyncStatus ∉ [.busy, .idle] ∧ f.id ∉ ([65, 78] : List UInt8) ∨
    v.asyncStatus = .busy ∧ f.id = 84 ∧ v.queryclass ≠ .describe ∧ ∃ r, v.result = some r ∧ r.status ≠ .fatalError

/-- The messages are examined one after another, until one is not whole or is left for later. -/
inductive Reads (future : Bytes) : PGconn → List Frame → PGconn → List Frame → Prop where
  | wait {conn conn' : PGconn} {frames : List Frame} (hstep : conn.parseStep = some (.wait conn'))
      (hat : conn'.At frames future)
      (hhead : ∀ f ∈ frames.head?, conn.unread.length < f.encode.length ∨ Leaves conn.view f) :
      Reads future conn frames conn' frames
  | again {conn conn₁ conn' : PGconn} {f : Frame} {frames rest : List Frame}
      (hstep : conn.parseStep = some (.again conn₁)) (hat : conn₁.At frames future)
      (heffect : Handles conn.view f conn₁.view ∨
        (∀ v, ¬ Handles conn.view f v) ∧ conn₁.errorMessage = disagree f.id)
      (hnext : Reads future conn₁ frames conn' rest) : Reads future conn (f :: frames) conn' rest

/-- Each message has contents that its handler takes, up to one that is left for later. -/
inductive Orderly : View → List Frame → Prop where
  | nil (v : View) : Orderly v []
  | leaves {v : View} {f : Frame} (frames : List Frame) (h : Leaves v f) : Orderly v (f :: frames)
  | handles {v v' : View} {f : Frame} {frames : List Frame} (h : Handles v f v') (hnext : Orderly v' frames) :
      Orderly v (f :: frames)

variable {conn : PGconn}

/-- The connection after the first message. -/
theorem PGconn.At.handled {f : Frame} {frames : List Frame} {future rest : Bytes} {v : View} {fuel : ℕ}
    (hat : conn.At (f :: frames) future) (hfits : f.Fits) (hhandles : Handles conn.view f v)
    (hrest : conn.unread = f.encode ++ rest) (hstream : rest ++ future = encodeFrames frames)
    (hfuel : conn.unread.length < fuel + 1) : ∃ conn₁, conn.parseStep = some (.again conn₁) ∧ conn₁.view = v ∧
      conn₁.At frames future ∧ conn₁.unread.length < fuel := by
  obtain ⟨conn₁, hstep, hview, hunread, hstart⟩ := consumes_of_handles hhandles hfits hat.start hrest
  refine ⟨conn₁, hstep, hview, ⟨hstart, by rw [hunread]; exact hstream⟩, ?_⟩
  rw [hunread]
  exact Frame.rest_lt hrest hfuel

/-- A chunk is one that comes next. -/
theorem PGconn.At.chunk {frames : List Frame} {chunk future : Bytes} (hat : conn.At frames (chunk ++ future)) :
    PGconn.At { conn with inBuffer := conn.inBuffer ++ chunk } frames future := by
  refine ⟨?_, ?_⟩
  · have hstart := hat.start
    dsimp only
    rw [List.length_append]
    omega
  · rw [unread_chunk hat.start, List.append_assoc]
    exact hat.stream

end Postgresql
