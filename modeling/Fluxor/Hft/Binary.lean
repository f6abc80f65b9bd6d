import Fluxor.Support.LittleEndian

/-!
# The binary order protocol

`MarshalBinary` of the messages of `pkg/hft/protocol/binary.go`. It writes over a
buffer from a pool, of which four bytes keep what an earlier message has left there:
the last ones for a new order, and the padding behind the symbol for market data,
which the checksum covers.

An encoding is given by its bytes in their order, with those that are left; that the
writes of the source at their offsets give these bytes is `marshalBinary_eq_writes`.
-/

namespace Fluxor.Hft

open Support

/-- `MessageHeader`, without the length and the type, which are not read. -/
structure MessageHeader where
  flags : UInt16
  timestamp : Int64
  seqNum : UInt64

def msgTypeNewOrder : ℕ := 1

def msgTypeMarketData : ℕ := 5

structure NewOrderMessage where
  header : MessageHeader
  orderID : UInt64
  (price quantity : Int64)
  symbolID : UInt32
  (side type tif flags : UInt8)
  clientOrderID : Vector UInt8 16

structure MarketDataMessage where
  header : MessageHeader
  symbolID : UInt32
  (bidPrice bidQty askPrice askQty lastPrice lastQty : Int64)

def putInt64 (x : Int64) : Bytes := putUint 8 x.toUInt64.toNat

def putHeader (length type : ℕ) (h : MessageHeader) : Bytes :=
  putUint 4 length ++ putUint 2 type ++ putUint 2 h.flags.toNat ++ putInt64 h.timestamp ++
    putUint 8 h.seqNum.toNat

def left (buf : Bytes) (lo hi : ℕ) : Bytes := (buf.drop lo).take (hi - lo)

section

variable (crc : Bytes → UInt32) (buf : Bytes)

def withChecksum (body : Bytes) : Bytes := body ++ putUint 4 (crc body).toNat

/-- The 76 bytes that are written, and the 4 behind them. -/
def NewOrderMessage.marshalBinary (m : NewOrderMessage) : Bytes :=
  withChecksum crc (putHeader 76 msgTypeNewOrder m.header ++ putUint 8 m.orderID.toNat ++
    putInt64 m.price ++ putInt64 m.quantity ++ putUint 4 m.symbolID.toNat ++
    [m.side, m.type, m.tif, m.flags] ++ m.clientOrderID.toList) ++ left buf 76 80

def MarketDataMessage.prices (m : MarketDataMessage) : Bytes :=
  putInt64 m.bidPrice ++ putInt64 m.bidQty ++ putInt64 m.askPrice ++ putInt64 m.askQty ++
    putInt64 m.lastPrice ++ putInt64 m.lastQty

def MarketDataMessage.marshalBinary (m : MarketDataMessage) : Bytes :=
  withChecksum crc (putHeader 84 msgTypeMarketData m.header ++ putUint 4 m.symbolID.toNat ++
    left buf 28 32 ++ m.prices)

end

/-! ## The writes -/

open List

/-- `copy(b[off:], bs)`. -/
def writeAt (off : ℕ) (bs b : Bytes) : Bytes := b.take off ++ bs ++ b.drop (off + bs.length)

def writeAll (writes : List (ℕ × Bytes)) (b : Bytes) : Bytes :=
  writes.foldl (fun b w => writeAt w.1 w.2 b) b

/-- The checksum of the first `n` bytes is written behind them. -/
def writeChecksum (crc : Bytes → UInt32) (n : ℕ) (b : Bytes) : Bytes :=
  writeAt n (putUint 4 (crc (b.take n)).toNat) b

def MessageHeader.writes (length type : ℕ) (h : MessageHeader) : List (ℕ × Bytes) :=
  [(0, putUint 4 length), (4, putUint 2 type), (6, putUint 2 h.flags.toNat),
    (8, putInt64 h.timestamp), (16, putUint 8 h.seqNum.toNat)]

def NewOrderMessage.writes (m : NewOrderMessage) : List (ℕ × Bytes) :=
  m.header.writes 76 msgTypeNewOrder ++
    [(24, putUint 8 m.orderID.toNat), (32, putInt64 m.price), (40, putInt64 m.quantity),
      (48, putUint 4 m.symbolID.toNat), (52, [m.side]), (53, [m.type]), (54, [m.tif]),
      (55, [m.flags]), (56, m.clientOrderID.toList)]

def MarketDataMessage.symbolWrites (m : MarketDataMessage) : List (ℕ × Bytes) :=
  m.header.writes 84 msgTypeMarketData ++ [(24, putUint 4 m.symbolID.toNat)]

/-- The writes behind the padding. -/
def MarketDataMessage.priceWrites (m : MarketDataMessage) : List (ℕ × Bytes) :=
  [(32, putInt64 m.bidPrice), (40, putInt64 m.bidQty), (48, putInt64 m.askPrice),
    (56, putInt64 m.askQty), (64, putInt64 m.lastPrice), (72, putInt64 m.lastQty)]

@[simp] theorem length_putInt64 (x : Int64) : (putInt64 x).length = 8 := length_putUint ..

/-- Writes that follow one another from `off` on. -/
def Consecutive : ℕ → List (ℕ × Bytes) → Prop
  | _, [] => True
  | off, w :: writes => w.1 = off ∧ Consecutive (off + w.2.length) writes

theorem writeAll_consecutive {writes : List (ℕ × Bytes)} {pre : Bytes}
    (h : Consecutive pre.length writes) (rest : Bytes) :
    writeAll writes (pre ++ rest) = pre ++ writes.flatMap Prod.snd ++
      rest.drop (writes.flatMap Prod.snd).length := by
  induction writes generalizing pre rest with
  | nil => simp [writeAll]
  | cons w writes ih =>
    obtain ⟨hoff, hnext⟩ := h
    have hwrite : writeAt w.1 w.2 (pre ++ rest) = pre ++ w.2 ++ rest.drop w.2.length := by
      simp [writeAt, hoff]
    rw [← length_append] at hnext
    have htail := ih hnext (rest.drop w.2.length)
    rw [writeAll, foldl_cons, hwrite]
    refine htail.trans ?_
    simp [drop_drop]

theorem writeChecksum_append (crc : Bytes → UInt32) (body rest : Bytes) :
    writeChecksum crc body.length (body ++ rest) = withChecksum crc body ++ rest.drop 4 := by
  simp [writeChecksum, writeAt, withChecksum]

/-- The writes at the offsets of the source give the encoding. -/
theorem NewOrderMessage.marshalBinary_eq_writes (crc : Bytes → UInt32) (buf : Bytes)
    (m : NewOrderMessage) :
    m.marshalBinary crc buf = writeChecksum crc 72 (writeAll m.writes (buf.take 80)) := by
  have hwrites : Consecutive ([] : Bytes).length m.writes := by
    simp [writes, MessageHeader.writes, Consecutive]
  have hlength : (m.writes.flatMap Prod.snd).length = 72 := by
    simp [writes, MessageHeader.writes]
  have hall := writeAll_consecutive hwrites (buf.take 80)
  rw [nil_append, nil_append, hlength] at hall
  have hsum := writeChecksum_append crc (m.writes.flatMap Prod.snd) ((buf.take 80).drop 72)
  rw [hlength, drop_drop] at hsum
  rw [hall, hsum, drop_take]
  simp [marshalBinary, writes, MessageHeader.writes, putHeader, left]

/-- The padding is skipped, so the buffer has to have it. -/
theorem MarketDataMessage.marshalBinary_eq_writes (crc : Bytes → UInt32) {buf : Bytes}
    (hbuf : 84 ≤ buf.length) (m : MarketDataMessage) :
    m.marshalBinary crc buf =
      writeChecksum crc 80 (writeAll (m.symbolWrites ++ m.priceWrites) (buf.take 84)) := by
  have hfirst : Consecutive ([] : Bytes).length m.symbolWrites := by
    simp [symbolWrites, MessageHeader.writes, Consecutive]
  have hlength : (m.symbolWrites.flatMap Prod.snd).length = 28 := by
    simp [symbolWrites, MessageHeader.writes]
  have hleft : (left buf 28 32).length = 4 := by
    simp [left]
    omega
  have hsecond : Consecutive (m.symbolWrites.flatMap Prod.snd ++ left buf 28 32).length
      m.priceWrites := by
    simp [length_append, hlength, hleft, priceWrites, Consecutive]
  have hprices : m.priceWrites.flatMap Prod.snd = m.prices := by
    simp [priceWrites, prices]
  have hwritten := writeAll_consecutive hfirst (buf.take 84)
  have hpadding : (buf.take 84).drop 28 = left buf 28 32 ++ (buf.take 84).drop 32 := by
    have hsplit := (take_append_drop 4 ((buf.take 84).drop 28)).symm
    rw [drop_drop, drop_take, take_take] at hsplit
    rw [drop_take]
    exact hsplit
  rw [nil_append, nil_append, hlength, hpadding, ← append_assoc] at hwritten
  have hall := writeAll_consecutive hsecond ((buf.take 84).drop 32)
  rw [hprices, drop_drop] at hall
  have hbody : m.marshalBinary crc buf =
      withChecksum crc (m.symbolWrites.flatMap Prod.snd ++ left buf 28 32 ++ m.prices) := by
    simp [marshalBinary, symbolWrites, MessageHeader.writes, putHeader]
  have hsum := writeChecksum_append crc (m.symbolWrites.flatMap Prod.snd ++ left buf 28 32 ++
    m.prices) ((buf.take 84).drop 80)
  have hprice : m.prices.length = 48 := by simp [prices]
  have hend : (buf.take 84).drop (80 + 4) = [] := drop_eq_nil_of_le (by simp)
  rw [length_append, length_append, hlength, hleft, hprice, drop_drop, hend,
    append_nil] at hsum
  rw [hprice] at hall
  rw [writeAll, foldl_append, ← writeAll, ← writeAll, hwritten, hall, hbody]
  exact hsum.symm

/-- Two buffers give the same encodings exactly if they agree on the unwritten bytes. -/
theorem marshalBinary_eq_iff (crc : Bytes → UInt32) (buf buf' : Bytes) (m : NewOrderMessage)
    (d : MarketDataMessage) :
    (m.marshalBinary crc buf = m.marshalBinary crc buf' ↔ left buf 76 80 = left buf' 76 80) ∧
      (d.marshalBinary crc buf = d.marshalBinary crc buf' ↔ left buf 28 32 = left buf' 28 32) := by
  refine ⟨append_right_inj _, fun h => ?_, fun h => ?_⟩
  · simp only [MarketDataMessage.marshalBinary, withChecksum] at h
    -- The checksums are equally long, and so are the numbers before them.
    obtain ⟨hbody, -⟩ := append_inj' h (by rw [length_putUint, length_putUint])
    exact (append_right_inj _).mp (append_inj' hbody rfl).1
  · rw [MarketDataMessage.marshalBinary, h, MarketDataMessage.marshalBinary]

def putBuffer (encoding buf : Bytes) : Bytes := encoding ++ buf.drop encoding.length

def newBuffer : Bytes := replicate 1024 0

def anOrder (orderID : UInt64) : NewOrderMessage :=
  ⟨⟨0, 0, 0⟩, orderID, 0, 0, 0, 0, 0, 0, 0, Vector.replicate 16 0⟩

def aTick (lastQty : Int64) : MarketDataMessage := ⟨⟨0, 0, 0⟩, 0, 0, 0, 0, 0, 0, lastQty⟩

/-- An order shows the last quantity of the market data before it, and market
data the identifier of the order before it. -/
theorem marshalBinary_reveals : ∃ (m m' : NewOrderMessage) (d d' : MarketDataMessage), ∀ crc,
    m.marshalBinary crc newBuffer ≠
        m.marshalBinary crc (putBuffer (d'.marshalBinary crc newBuffer) newBuffer) ∧
      d.marshalBinary crc newBuffer ≠
        d.marshalBinary crc (putBuffer (m'.marshalBinary crc newBuffer) newBuffer) := by
  refine ⟨anOrder 0, anOrder 4294967296, aTick 0, aTick 4294967296, fun crc => ⟨?_, ?_⟩⟩
  · intro h
    have hlast : ([0, 0, 0, 0] : Bytes) = [1, 0, 0, 0] := congrArg (left · 76 80) h
    cases hlast
  · intro h
    have hpadding : ([0, 0, 0, 0] : Bytes) = [1, 0, 0, 0] := congrArg (left · 28 32) h
    cases hpadding

end Fluxor.Hft
