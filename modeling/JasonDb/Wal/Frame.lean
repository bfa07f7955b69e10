import JasonDb.Basic
import JasonDb.Lib.File

namespace JasonDb.WalFile

open Lib

def WAL_HEADER_SIZE : Nat := 32

def WAL_FRAME_SIZE : Nat := PAGE_SIZE + 28

def WAL_BUFFER_SIZE : Nat := 64 * 1024

def WAL_MAGIC : Bytes := [87, 76, 79, 71]

structure WALHeader where
  magic : Bytes
  version : UInt32
  salt1 : UInt32
  salt2 : UInt32
deriving DecidableEq

structure WALFrame where
  txId : UInt64
  pageNum : UInt64
  pageData : Bytes
  checksum : UInt32
  salt1 : UInt32
  salt2 : UInt32
deriving DecidableEq

def crc32Round (crc : UInt32) : UInt32 :=
  if crc &&& 1 ≠ 0 then (crc >>> 1) ^^^ 0xEDB88320 else crc >>> 1

def crc32TableEntry (i : UInt32) : UInt32 := Nat.repeat crc32Round 8 i

def crc32Ieee (data : Bytes) : UInt32 :=
  ~~~ data.foldl
    (fun crc byte => (crc >>> 8) ^^^ crc32TableEntry ((crc ^^^ byte.toUInt32) &&& 0xFF)) 0xFFFFFFFF

def calculateChecksum (frame : WALFrame) : UInt32 :=
  let crc := crc32Ieee (leBytes 8 frame.txId.toNat ++ leBytes 8 frame.pageNum.toNat ++ frame.pageData)
  crc ^^^ frame.salt1 ^^^ frame.salt2

def serializeFrame (frame : WALFrame) : Bytes :=
  leBytes 8 frame.txId.toNat ++ leBytes 8 frame.pageNum.toNat ++ leBytes 4 frame.salt1.toNat ++
    leBytes 4 frame.salt2.toNat ++ frame.pageData ++ leBytes 4 frame.checksum.toNat

-- Bytes `start` to `start + len` of a record.
def slice (data : Bytes) (start len : Nat) : Bytes := (data.drop start).take len

def parseFrame (data : Bytes) : WALFrame where
  txId := UInt64.ofNat (ofLeBytes (slice data 0 8))
  pageNum := UInt64.ofNat (ofLeBytes (slice data 8 8))
  pageData := slice data 24 PAGE_SIZE
  checksum := UInt32.ofNat (ofLeBytes (slice data (24 + PAGE_SIZE) 4))
  salt1 := UInt32.ofNat (ofLeBytes (slice data 16 4))
  salt2 := UInt32.ofNat (ofLeBytes (slice data 20 4))

namespace WALHeader

def serialize (header : WALHeader) : Bytes :=
  header.magic ++ leBytes 4 header.version.toNat ++ leBytes 4 header.salt1.toNat ++
    leBytes 4 header.salt2.toNat ++ List.replicate 16 0

def parse (data : Bytes) : WALHeader where
  magic := slice data 0 4
  version := UInt32.ofNat (ofLeBytes (slice data 4 4))
  salt1 := UInt32.ofNat (ofLeBytes (slice data 8 4))
  salt2 := UInt32.ofNat (ofLeBytes (slice data 12 4))

-- The checks a frame of the file passes before it counts.
def accepts (header : WALHeader) (frame : WALFrame) : Bool :=
  frame.salt1 = header.salt1 && frame.salt2 = header.salt2 &&
    frame.checksum = calculateChecksum frame

def decode (header : WALHeader) (data : Bytes) : Option WALFrame :=
  if data.length = WAL_FRAME_SIZE ∧ header.accepts (parseFrame data) then some (parseFrame data)
  else none

-- The frame `write_frame` makes.
def frame (header : WALHeader) (txId pageNum : UInt64) (pageData : Bytes) : WALFrame :=
  let frame : WALFrame := ⟨txId, pageNum, pageData, 0, header.salt1, header.salt2⟩
  { frame with checksum := calculateChecksum frame }

end WALHeader

def layout : Layout := ⟨WAL_HEADER_SIZE, WAL_FRAME_SIZE⟩

section Codec

variable {header : WALHeader}

theorem slice_middle (front field back : Bytes) (start : Nat) {len : Nat}
    (hstart : front.length = start) (hlen : field.length = len) :
    slice (front ++ (field ++ back)) start len = field := by
  subst hstart hlen
  simp only [slice]
  rw [List.drop_left, List.take_left]

theorem length_serializeFrame {frame : WALFrame} (h : frame.pageData.length = PAGE_SIZE) :
    (serializeFrame frame).length = WAL_FRAME_SIZE := by
  simp only [serializeFrame, List.length_append, length_leBytes, h, WAL_FRAME_SIZE]
  omega

theorem parseFrame_serializeFrame {frame : WALFrame} (h : frame.pageData.length = PAGE_SIZE) :
    parseFrame (serializeFrame frame) = frame := by
  obtain ⟨txId, pageNum, pageData, checksum, salt1, salt2⟩ := frame
  change pageData.length = PAGE_SIZE at h
  -- The six fields one after the other, each cut out at its own position.
  let tx := leBytes 8 txId.toNat
  let page := leBytes 8 pageNum.toNat
  let s1 := leBytes 4 salt1.toNat
  let s2 := leBytes 4 salt2.toNat
  let sum := leBytes 4 checksum.toNat
  have htx := slice_middle [] tx (page ++ s1 ++ s2 ++ pageData ++ sum) 0 rfl (length_leBytes 8 _)
  have hpage := slice_middle tx page (s1 ++ s2 ++ pageData ++ sum) 8 (length_leBytes 8 _)
    (length_leBytes 8 _)
  have hs1 := slice_middle (tx ++ page) s1 (s2 ++ pageData ++ sum) 16 (by simp [tx, page])
    (length_leBytes 4 _)
  have hs2 := slice_middle (tx ++ page ++ s1) s2 (pageData ++ sum) 20 (by simp [tx, page, s1])
    (length_leBytes 4 _)
  have hdata := slice_middle (tx ++ page ++ s1 ++ s2) pageData sum 24 (by simp [tx, page, s1, s2]) h
  have hsum := slice_middle (tx ++ page ++ s1 ++ s2 ++ pageData) sum [] (24 + PAGE_SIZE)
    (by simp only [List.length_append, tx, page, s1, s2, length_leBytes, h]) (length_leBytes 4 _)
  simp only [List.append_assoc, List.nil_append, List.append_nil, tx, page, s1, s2, sum]
    at htx hpage hs1 hs2 hdata hsum
  simp only [parseFrame, serializeFrame, List.append_assoc]
  rw [htx, hpage, hs1, hs2, hdata, hsum]
  simp only [ofNat_ofLeBytes_uint64, ofNat_ofLeBytes_uint32]

theorem WALHeader.parse_serialize (hmagic : header.magic.length = 4) :
    WALHeader.parse header.serialize = header := by
  obtain ⟨magic, version, salt1, salt2⟩ := header
  change magic.length = 4 at hmagic
  let v := leBytes 4 version.toNat
  let s1 := leBytes 4 salt1.toNat
  let s2 := leBytes 4 salt2.toNat
  let pad : Bytes := List.replicate 16 0
  have hm := slice_middle [] magic (v ++ s1 ++ s2 ++ pad) 0 rfl hmagic
  have hv := slice_middle magic v (s1 ++ s2 ++ pad) 4 hmagic (length_leBytes 4 _)
  have hs1 := slice_middle (magic ++ v) s1 (s2 ++ pad) 8 (by simp [v, hmagic])
    (length_leBytes 4 _)
  have hs2 := slice_middle (magic ++ v ++ s1) s2 pad 12 (by simp [v, s1, hmagic])
    (length_leBytes 4 _)
  simp only [List.append_assoc, List.nil_append, v, s1, s2, pad] at hm hv hs1 hs2
  simp only [parse, serialize, List.append_assoc]
  rw [hm, hv, hs1, hs2]
  simp only [ofNat_ofLeBytes_uint32]

theorem length_serialize (hmagic : header.magic.length = 4) :
    header.serialize.length = WAL_HEADER_SIZE := by
  simp only [WALHeader.serialize, List.length_append, length_leBytes, List.length_replicate, hmagic,
    WAL_HEADER_SIZE]

theorem decode_serializeFrame {frame : WALFrame} (h : frame.pageData.length = PAGE_SIZE)
    (haccepts : header.accepts frame) : header.decode (serializeFrame frame) = some frame := by
  unfold WALHeader.decode
  rw [parseFrame_serializeFrame h, if_pos ⟨length_serializeFrame h, haccepts⟩]

theorem accepts_frame (header : WALHeader) (txId pageNum : UInt64) (pageData : Bytes) :
    header.accepts (header.frame txId pageNum pageData) := by
  simp [WALHeader.accepts, WALHeader.frame, calculateChecksum]

theorem decode_frame (header : WALHeader) (txId pageNum : UInt64) {pageData : Bytes}
    (h : pageData.length = PAGE_SIZE) :
    header.decode (serializeFrame (header.frame txId pageNum pageData)) =
      some (header.frame txId pageNum pageData) :=
  decode_serializeFrame h (accepts_frame header txId pageNum pageData)

theorem whole_decode (header : WALHeader) : layout.Whole header.decode := by
  intro data frame h
  unfold WALHeader.decode at h
  split_ifs at h with hdata
  exact hdata.1

theorem frameSize_pos : 0 < layout.size := by decide

end Codec

end JasonDb.WalFile
