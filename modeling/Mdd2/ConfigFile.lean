/-
  The configuration of the OST feeds (`ostmd/config_file_reader.h`, `OstStart` in
  `ostmd/ostmd.cpp`).

  A file has sections of assignments.  A `#` starts a comment; blanks and quotes around a
  value are dropped.  `OstStart` opens the channels of the market that are enabled, and the
  first one gets the processor of the ticks.
-/
import Mdd2.Lib.Text
import Mdd2.MDS

namespace Mdd2

open Text

/-- A `std::string`. -/
abbrev Str := List Char

/-- `m_config_map`: sections, and the names in them. -/
abbrev ConfigMap := Str → Str → Option Str

namespace ConfigFileReader

/-- Blank, tabulator, and the two quotes. -/
def blanks : Str := [' ', '\t', Char.ofNat 39, Char.ofNat 34]

/-- What has nothing else in it is not trimmed. -/
def trim (str : Str) : Str :=
  match findFirstNotOf str blanks with
  | none => str
  | some first =>
    substr str first ((findLastNotOf str blanks).map fun last => last - first + 1)

/-- The variables of `LoadConfigFile`. -/
structure Loader where
  currentSection : Str := []
  m_config_map : ConfigMap := fun _ _ => none

/-- `m_config_map[currentSection][name] = value`. -/
def Loader.assign (r : Loader) (name value : Str) : Loader :=
  { r with
    m_config_map := Function.update r.m_config_map r.currentSection
      (Function.update (r.m_config_map r.currentSection) name (some value)) }

/-- The position of a value; `npos + 1` is zero. -/
def valuePos : Option ℕ → ℕ
  | some delimiterPos => delimiterPos + 1
  | none => 0

def loadLine (r : Loader) (line : Str) : Loader :=
  let line := substr line 0 (find line '#')
  match line with
  | [] => r
  | c :: _ =>
    if c = '[' then
      { r with currentSection := substr line 1 ((find line ']').map fun pos => pos - 1) }
    else
      let delimiterPos := find line '='
      let name := substr line 0 delimiterPos
      let value := substr line (valuePos delimiterPos) none
      r.assign name (trim value)

/-- `LoadConfigFile`; `none` is a file that cannot be opened. -/
def LoadConfigFile (file : Option Str) : Bool × ConfigMap :=
  match file with
  | none => (false, ({} : Loader).m_config_map)
  | some text => (true, ((getlines '\n' text).foldl loadLine {}).m_config_map)

def GetValueString (config : ConfigMap) (sectionName name : Str) : Str :=
  (config sectionName name).getD []

def GetValueInt (config : ConfigMap) (sectionName name : Str) : Except ConversionError Int32 :=
  let valueString := GetValueString config sectionName name
  if valueString = [] then .ok 0 else stoi valueString

end ConfigFileReader

/-- `sock_udp_param`. -/
structure SockUdpParam where
  m_open : Bool
  m_cpu_id : Int32
  m_multicast_ip : Str
  m_multicast_port : UInt16
  m_local_ip : Str
  m_local_port : UInt16
  m_eth_name : Str
  deriving DecidableEq

open ConfigFileReader in
/-- `GetSockUdpParam`; the ports are cut to 16 bits. -/
def ConfigFileReader.GetSockUdpParam (config : ConfigMap) (sectionName : Str) :
    Except ConversionError SockUdpParam := do
  let enable ← GetValueInt config sectionName "enable".toList
  let cpuId ← GetValueInt config sectionName "cpu_id".toList
  let localPort ← GetValueInt config sectionName "local_port".toList
  let multicastPort ← GetValueInt config sectionName "multicast_port".toList
  pure {
    m_open := enable ≠ 0
    m_cpu_id := cpuId
    m_multicast_ip := GetValueString config sectionName "multicast_ip".toList
    m_multicast_port := multicastPort.toUInt32.toUInt16
    m_local_ip := GetValueString config sectionName "local_ip".toList
    m_local_port := localPort.toUInt32.toUInt16
    m_eth_name := GetValueString config sectionName "eth_name".toList }

namespace Ostmd

/-- The names of `channels`. -/
def channels : Market → List Str
  | .SH => ["SHJQ_TICK_MERGE".toList, "SHJQ_SSE_SNAPSHOT".toList, "SHJQ_SZE_SNAPSHOT".toList]
  | .SZ => ["NFZX_ORDER_EXE".toList, "NFZX_SSE_SNAPSHOT".toList, "NFZX_SZE_SNAPSHOT".toList]

inductive StartError where
  /-- an exception of `std::stoi` -/
  | conversion (error : ConversionError)
  /-- "ostmd channel initialize failed" -/
  | initFailed
  deriving DecidableEq

/-- The loop of `OstStart`: the receivers that are started, and the exception that ends it.
    `init` is `udp_quote_base::init` for a channel. -/
def startChannels (config : ConfigMap) (init : Str → SockUdpParam → Bool) :
    Int32 → List Str → List (Str × SockUdpParam) × Option StartError
  | _, [] => ([], none)
  | ticksBindCpu, ch :: chs =>
    match ConfigFileReader.GetSockUdpParam config ch with
    | .error e => ([], some (.conversion e))
    | .ok param =>
      let param := if ticksBindCpu ≠ -1 then { param with m_cpu_id := ticksBindCpu } else param
      if param.m_open then
        if init ch param then
          let r := startChannels config init (-1) chs
          ((ch, param) :: r.1, r.2)
        else ([], some .initFailed)
      else startChannels config init (-1) chs

/-- `OstStart`.  That the file cannot be opened is not noticed. -/
def OstStart (market : Market) (configFile : Option Str) (init : Str → SockUdpParam → Bool)
    (ticksBindCpu : Int32) : List (Str × SockUdpParam) × Option StartError :=
  startChannels (ConfigFileReader.LoadConfigFile configFile).2 init ticksBindCpu (channels market)

end Ostmd

end Mdd2
