/-
  What a configuration file of the feeds means.

  * `Line` is what a line can be, `Entry` a line with its comment, and `assignments` what a
    document assigns;
  * `load_lines`: the reader finds the last value that is assigned to a name in a section;
  * `exists_document`: every text is a document;
  * `configFile_document`: both together;
  * `ostStart_channels`: the channels that are opened are the enabled ones of the file, with
    the values that it gives them.
-/
import Mdd2.ConfigFile

namespace Mdd2

open Text

namespace ConfigFileReader

/-! ## Documents -/

/-- A line of a file, without its comment. -/
inductive Line where
  | empty
  /-- `[name]`, and what is written behind it -/
  | heading (name rest : Str)
  | openHeading (name : Str)
  /-- `name=value`; the value is surrounded by blanks and quotes -/
  | assignment (name left body right : Str)
  /-- a line without `=` is its own name and value -/
  | bare (left body right : Str)

namespace Line

def text : Line → Str
  | empty => []
  | heading name rest => '[' :: (name ++ ']' :: rest)
  | openHeading name => '[' :: name
  | assignment name left body right => name ++ '=' :: (left ++ body ++ right)
  | bare left body right => left ++ body ++ right

/-- What is read of a padded value; if there is nothing but padding, it stays. -/
def value (left body right : Str) : Str := if body = [] then left ++ right else body

def WellFormed : Line → Prop
  | empty => True
  | heading name _ => ']' ∉ name
  | openHeading name => ']' ∉ name
  | assignment name left body right =>
    '=' ∉ name ∧ name.head? ≠ some '[' ∧ Pad blanks left body right
  | bare left body right =>
    left ++ body ++ right ≠ [] ∧ '=' ∉ left ++ body ++ right ∧
      (left ++ body ++ right).head? ≠ some '[' ∧ Pad blanks left body right

instance : DecidablePred WellFormed
  | empty => isTrue trivial
  | heading name _ => inferInstanceAs (Decidable (']' ∉ name))
  | openHeading name => inferInstanceAs (Decidable (']' ∉ name))
  | assignment name left body right =>
    inferInstanceAs (Decidable ('=' ∉ name ∧ name.head? ≠ some '[' ∧
      Pad blanks left body right))
  | bare left body right =>
    inferInstanceAs (Decidable (left ++ body ++ right ≠ [] ∧ '=' ∉ left ++ body ++ right ∧
      (left ++ body ++ right).head? ≠ some '[' ∧ Pad blanks left body right))

/-- The name and the value that a line assigns. -/
def assigned : Line → Option (Str × Str)
  | assignment name left body right => some (name, value left body right)
  | bare left body right => some (left ++ body ++ right, value left body right)
  | _ => none

/-- The section after a line. -/
def sectionAfter (sectionName : Str) : Line → Str
  | heading name _ | openHeading name => name
  | _ => sectionName

end Line

/-- A line and its comment. -/
structure Entry where
  line : Line
  comment : Option Str

namespace Entry

def text (e : Entry) : Str :=
  e.line.text ++ match e.comment with
    | none => []
    | some comment => '#' :: comment

structure WellFormed (e : Entry) : Prop where
  line : e.line.WellFormed
  noComment : '#' ∉ e.line.text
  oneLine : '\n' ∉ e.text

instance : DecidablePred WellFormed := fun e =>
  decidable_of_iff (e.line.WellFormed ∧ '#' ∉ e.line.text ∧ '\n' ∉ e.text)
    ⟨fun h => ⟨h.1, h.2.1, h.2.2⟩, fun h => ⟨h.line, h.noComment, h.oneLine⟩⟩

end Entry

/-- Section, name and value of each assignment. -/
def assignments (sectionName : Str) : List Entry → List (Str × Str × Str)
  | [] => []
  | e :: doc =>
    (e.line.assigned.map (sectionName, ·)).toList ++
      assignments (e.line.sectionAfter sectionName) doc

/-- The last value that is assigned. -/
def lastValue (as : List (Str × Str × Str)) (sectionName name : Str) : Option Str :=
  ((as.filter fun a => a.1 = sectionName ∧ a.2.1 = name).getLast?).map (·.2.2)

def render (doc : List Entry) : Str := doc.flatMap fun e => e.text ++ ['\n']

/-! ## The reader -/

theorem trim_pad {left body right : Str} (h : Pad blanks left body right) :
    trim (left ++ body ++ right) = Line.value left body right := by
  rw [trim, Line.value]
  by_cases hbody : body = []
  · subst hbody
    have hall : ∀ x ∈ left ++ [] ++ right, x ∈ blanks := by
      intro x hx
      simp only [List.append_nil, List.mem_append] at hx
      rcases hx with hx | hx
      · exact h.left x hx
      · exact h.right x hx
    rw [findFirstNotOf_eq_none hall, if_pos rfl, List.append_nil]
  · have hpos := List.length_pos_iff.2 hbody
    rw [findFirstNotOf_pad h hbody, findLastNotOf_pad h hbody, if_neg hbody]
    simp only [Option.map_some]
    rw [show left.length + body.length - 1 - left.length + 1 = body.length by omega, substr,
      List.append_assoc, List.drop_left, List.take_left]

/-- What the reader does with a line. -/
def Loader.next (r : Loader) (line : Line) : Loader :=
  match line.assigned with
  | none => { r with currentSection := line.sectionAfter r.currentSection }
  | some (name, value) => r.assign name value

theorem substr_comment (e : Entry) (h : '#' ∉ e.line.text) :
    substr e.text 0 (find e.text '#') = e.line.text := by
  rw [Entry.text]
  cases e.comment with
  | none => rw [List.append_nil, find_eq_none h, substr, List.drop_zero]
  | some comment => rw [find_append h, substr_left]

theorem loadLine_text {e : Entry} (h : e.WellFormed) (r : Loader) :
    loadLine r e.text = r.next e.line := by
  have hline := h.line
  rw [loadLine, substr_comment e h.noComment]
  cases hcase : e.line with
  | empty => rfl
  | heading name rest =>
    rw [hcase] at hline
    have hname : ']' ∉ '[' :: name := by simpa [Line.WellFormed] using hline
    have hfind : find ('[' :: (name ++ ']' :: rest)) ']' = some (name.length + 1) :=
      find_append hname rest
    simp only [Line.text, if_true, hfind, Option.map_some, Nat.add_sub_cancel]
    rw [substr, List.drop_one, List.tail_cons, List.take_left]
    rfl
  | openHeading name =>
    rw [hcase] at hline
    have hfind : find ('[' :: name) ']' = none :=
      find_eq_none (by simpa [Line.WellFormed] using hline)
    simp only [Line.text, if_true, hfind, Option.map_none]
    rfl
  | assignment name left body right =>
    rw [hcase] at hline
    obtain ⟨heq, hhead, hpad⟩ := hline
    obtain ⟨c, cs, hcs⟩ := List.exists_cons_of_ne_nil
      (show name ++ '=' :: (left ++ body ++ right) ≠ [] by simp)
    have hc : c ≠ '[' := by
      cases name with
      | nil =>
        obtain ⟨rfl, -⟩ := List.cons.inj hcs
        decide
      | cons d name =>
        obtain ⟨rfl, -⟩ := List.cons.inj hcs
        rintro rfl
        exact hhead rfl
    simp only [Line.text]
    rw [hcs]
    simp only [if_neg hc]
    rw [← hcs, find_append heq, substr_left, valuePos, substr_right, trim_pad hpad]
    rfl
  | bare left body right =>
    rw [hcase] at hline
    obtain ⟨hne, heq, hhead, hpad⟩ := hline
    obtain ⟨c, cs, hcs⟩ := List.exists_cons_of_ne_nil hne
    have hc : c ≠ '[' := by
      rintro rfl
      exact hhead (by rw [hcs]; rfl)
    simp only [Line.text]
    rw [hcs]
    simp only [if_neg hc]
    rw [← hcs, find_eq_none heq, valuePos, substr, List.drop_zero, trim_pad hpad]
    rfl

/-- What an assignment changes. -/
theorem assign_apply (r : Loader) (name value s n : Str) :
    (r.assign name value).m_config_map s n =
      if r.currentSection = s ∧ name = n then some value else r.m_config_map s n := by
  rw [Loader.assign]
  by_cases hs : s = r.currentSection
  · subst hs
    by_cases hn : n = name
    · subst hn
      simp
    · simp [Function.update_of_ne hn, Ne.symm hn]
  · simp [Function.update_of_ne hs, Ne.symm hs]

theorem lastValue_cons (a : Str × Str × Str) (as : List (Str × Str × Str)) (s n : Str) :
    lastValue (a :: as) s n =
      (lastValue as s n).or (if a.1 = s ∧ a.2.1 = n then some a.2.2 else none) := by
  rw [lastValue, lastValue, List.filter_cons]
  by_cases h : a.1 = s ∧ a.2.1 = n
  · rw [if_pos (decide_eq_true h), if_pos h, List.getLast?_cons]
    cases (as.filter _).getLast? <;> rfl
  · rw [if_neg (by simpa using h), if_neg h, Option.or_none]

/-- **The reader finds the last value.** -/
theorem load_lines {doc : List Entry} (h : ∀ e ∈ doc, e.WellFormed) (r : Loader) (s n : Str) :
    ((doc.map Entry.text).foldl loadLine r).m_config_map s n =
      (lastValue (assignments r.currentSection doc) s n).or (r.m_config_map s n) := by
  induction doc generalizing r with
  | nil => rfl
  | cons e doc ih =>
    obtain ⟨he, hdoc⟩ := List.forall_mem_cons.1 h
    rw [List.map_cons, List.foldl_cons, loadLine_text he, ih hdoc, assignments, Loader.next]
    cases hassigned : e.line.assigned with
    | none => rfl
    | some a =>
      obtain ⟨name, value⟩ := a
      have hsection : e.line.sectionAfter r.currentSection = r.currentSection := by
        cases hline : e.line <;> rw [hline] at hassigned <;>
          first | rfl | exact absurd hassigned (by simp [Line.assigned])
      rw [hsection, assign_apply, Option.map_some, Option.toList_some, List.singleton_append,
        lastValue_cons, Option.or_assoc]
      congr 1
      split_ifs <;> rfl

/-! ## Every text is a document -/

theorem exists_line (text : Str) : ∃ line : Line, line.WellFormed ∧ line.text = text := by
  cases text with
  | nil => exact ⟨.empty, trivial, rfl⟩
  | cons c cs =>
    by_cases hc : c = '['
    · subst hc
      rcases exists_find cs ']' with hno | ⟨name, rest, hno, rfl⟩
      · exact ⟨.openHeading cs, hno, rfl⟩
      · exact ⟨.heading name rest, hno, rfl⟩
    · rcases exists_find (c :: cs) '=' with hno | ⟨name, value, hno, heq⟩
      · obtain ⟨left, body, right, hsplit, hpad⟩ := exists_pad (c :: cs) blanks
        refine ⟨.bare left body right, ⟨?_, ?_, ?_, hpad⟩, hsplit.symm⟩
        · rw [← hsplit]
          exact List.cons_ne_nil c cs
        · rwa [← hsplit]
        · rw [← hsplit]
          exact fun hx => hc (Option.some.inj hx)
      · obtain ⟨left, body, right, rfl, hpad⟩ := exists_pad value blanks
        refine ⟨.assignment name left body right, ⟨hno, ?_, hpad⟩, heq.symm⟩
        intro hx
        cases name with
        | nil => exact absurd hx (by simp)
        | cons d name =>
          obtain rfl := Option.some.inj hx
          exact hc (List.cons.inj heq).1

theorem exists_entry {line : Str} (h : '\n' ∉ line) :
    ∃ e : Entry, e.WellFormed ∧ e.text = line := by
  rcases exists_find line '#' with hno | ⟨pre, comment, hno, rfl⟩
  · obtain ⟨l, hl, rfl⟩ := exists_line line
    exact ⟨⟨l, none⟩, ⟨hl, hno, by simpa [Entry.text] using h⟩, by simp [Entry.text]⟩
  · obtain ⟨l, hl, rfl⟩ := exists_line pre
    exact ⟨⟨l, some comment⟩, ⟨hl, hno, h⟩, rfl⟩

theorem exists_entries {lines : List Str} (h : ∀ line ∈ lines, '\n' ∉ line) :
    ∃ doc : List Entry, (∀ e ∈ doc, e.WellFormed) ∧ lines = doc.map Entry.text := by
  induction lines with
  | nil => exact ⟨[], by simp, rfl⟩
  | cons line lines ih =>
    obtain ⟨hline, hlines⟩ := List.forall_mem_cons.1 h
    obtain ⟨e, he, rfl⟩ := exists_entry hline
    obtain ⟨doc, hdoc, rfl⟩ := ih hlines
    exact ⟨e :: doc, List.forall_mem_cons.2 ⟨he, hdoc⟩, rfl⟩

theorem getlines_render {doc : List Entry} (h : ∀ e ∈ doc, e.WellFormed) :
    getlines '\n' (render doc) = doc.map Entry.text := by
  rw [render, ← List.flatMap_map Entry.text (fun line => line ++ ['\n']),
    getlines_flatMap]
  intro line hline
  obtain ⟨e, he, rfl⟩ := List.mem_map.1 hline
  exact (h e he).oneLine

/-- **A configuration file means its last assignments.**  A document is read as it was
    written: a name has in a section the value that was assigned to it last, without the
    blanks and quotes around it.  Every text is read as some document. -/
theorem configFile_document :
    (∀ doc : List Entry, (∀ e ∈ doc, e.WellFormed) → ∀ s n,
      (LoadConfigFile (some (render doc))).2 s n = lastValue (assignments [] doc) s n) ∧
    ∀ text : Str, ∃ doc : List Entry, (∀ e ∈ doc, e.WellFormed) ∧
      getlines '\n' text = doc.map Entry.text ∧
      LoadConfigFile (some text) = LoadConfigFile (some (render doc)) := by
  constructor
  · intro doc h s n
    rw [LoadConfigFile, getlines_render h]
    exact (load_lines h {} s n).trans Option.or_none
  · intro text
    obtain ⟨doc, h, hlines⟩ := exists_entries fun line hline => mem_getlines hline
    refine ⟨doc, h, hlines, ?_⟩
    rw [LoadConfigFile, LoadConfigFile, hlines, getlines_render h]

/-! ## Parameters -/

/-- The value of a name is a number; something may follow its digits. -/
def Reads (value : Str → Option Str) (name : Str) (n : Int32) : Prop :=
  ∃ tail, value name = some (numeral n.toInt ++ tail) ∧ ∀ c ∈ tail.head?, ¬ c.isDigit

/-- The assignments of a section say what the parameters are. -/
structure Says (value : Str → Option Str) (param : SockUdpParam) : Prop where
  enable : ∃ n, Reads value "enable".toList n ∧ param.m_open = decide (n ≠ 0)
  cpuId : Reads value "cpu_id".toList param.m_cpu_id
  localPort : Reads value "local_port".toList param.m_local_port.toUInt32.toInt32
  multicastPort : Reads value "multicast_port".toList param.m_multicast_port.toUInt32.toInt32
  multicastIp : value "multicast_ip".toList = some param.m_multicast_ip
  localIp : value "local_ip".toList = some param.m_local_ip
  ethName : value "eth_name".toList = some param.m_eth_name

theorem numeral_ne_nil (n : ℤ) : numeral n ≠ [] := by
  rw [numeral]
  split_ifs
  · exact List.cons_ne_nil _ _
  · exact Nat.toDigits_ne_nil

theorem getValueInt_reads {config : ConfigMap} {s name : Str} {n : Int32}
    (h : Reads (config s) name n) : GetValueInt config s name = .ok n := by
  obtain ⟨tail, hvalue, htail⟩ := h
  have hstring : GetValueString config s name = numeral n.toInt ++ tail := by
    rw [GetValueString, hvalue, Option.getD_some]
  rw [GetValueInt, hstring, if_neg, stoi_numeral n htail]
  exact fun hnil => numeral_ne_nil _ (List.append_eq_nil_iff.1 hnil).1

theorem toUInt16_port (port : UInt16) : port.toUInt32.toInt32.toUInt32.toUInt16 = port := by
  simp

/-- **The parameters are what the section says.** -/
theorem getSockUdpParam_says {config : ConfigMap} {s : Str} {param : SockUdpParam}
    (h : Says (config s) param) : GetSockUdpParam config s = .ok param := by
  obtain ⟨n, hn, hopen⟩ := h.enable
  rw [GetSockUdpParam, getValueInt_reads hn, getValueInt_reads h.cpuId,
    getValueInt_reads h.localPort, getValueInt_reads h.multicastPort]
  simp only [GetValueString, h.multicastIp, h.localIp, h.ethName, Option.getD_some, bind,
    Except.bind, pure, Except.pure, toUInt16_port, ← hopen]

/-- A channel that the file does not have is not open. -/
theorem getSockUdpParam_absent {config : ConfigMap} {s : Str} (h : ∀ name, config s name = none) :
    ∃ param, GetSockUdpParam config s = .ok param ∧ param.m_open = false := by
  have hint : ∀ name, GetValueInt config s name = .ok 0 := by
    intro name
    rw [GetValueInt, GetValueString, h]
    rfl
  rw [GetSockUdpParam, hint, hint, hint, hint]
  exact ⟨_, rfl, rfl⟩

end ConfigFileReader

namespace Ostmd

open ConfigFileReader

/-! ## The channels -/

/-- Where the first channel of all gets the processor of the ticks. -/
def bound (ticksBindCpu : Int32) (param : SockUdpParam) : SockUdpParam :=
  if ticksBindCpu ≠ -1 then { param with m_cpu_id := ticksBindCpu } else param

/-- The enabled channels in their order, with the values of the file. -/
def enabled (settings : Str → Option SockUdpParam) (ticksBindCpu : Int32) :
    List Str → List (Str × SockUdpParam)
  | [] => []
  | ch :: chs =>
    (((settings ch).map (bound ticksBindCpu)).filter (·.m_open)).toList.map (ch, ·) ++
      enabled settings (-1) chs

theorem bound_open (ticksBindCpu : Int32) (param : SockUdpParam) :
    (bound ticksBindCpu param).m_open = param.m_open := by
  rw [bound]
  split_ifs <;> rfl

/-- Channels are started one after the other, up to the first that fails. -/
def started (init : Str → SockUdpParam → Bool) (chs : List (Str × SockUdpParam)) :
    List (Str × SockUdpParam) × Option StartError :=
  (chs.takeWhile fun c => init c.1 c.2,
    if ∀ c ∈ chs, init c.1 c.2 then none else some .initFailed)

section
variable {config : ConfigMap} {settings : Str → Option SockUdpParam} {ch : Str} {chs : List Str}
  {init : Str → SockUdpParam → Bool} {ticksBindCpu : Int32} {param : SockUdpParam}

theorem enabled_skip (h : ∀ param ∈ settings ch, param.m_open = false) :
    enabled settings ticksBindCpu (ch :: chs) = enabled settings (-1) chs := by
  rw [enabled]
  cases hset : settings ch with
  | none => rfl
  | some param =>
    rw [Option.map_some, Option.filter_some_neg (by simp [bound_open, h param hset])]
    rfl

theorem enabled_open (hset : settings ch = some param) (hopen : param.m_open = true) :
    enabled settings ticksBindCpu (ch :: chs) =
      (ch, bound ticksBindCpu param) :: enabled settings (-1) chs := by
  rw [enabled, hset, Option.map_some, Option.filter_some_pos (by rw [bound_open, hopen])]
  rfl

theorem startChannels_skip (hparam : GetSockUdpParam config ch = .ok param)
    (hclosed : param.m_open = false) :
    startChannels config init ticksBindCpu (ch :: chs) = startChannels config init (-1) chs := by
  simp only [startChannels, hparam]
  refine if_neg ?_
  rw [← bound, bound_open, hclosed]
  exact Bool.false_ne_true

theorem startChannels_open (hparam : GetSockUdpParam config ch = .ok param)
    (hopen : param.m_open = true) :
    startChannels config init ticksBindCpu (ch :: chs) =
      if init ch (bound ticksBindCpu param) then
        ((ch, bound ticksBindCpu param) :: (startChannels config init (-1) chs).1,
          (startChannels config init (-1) chs).2)
      else ([], some .initFailed) := by
  simp only [startChannels, hparam]
  refine if_pos ?_
  rw [← bound, bound_open, hopen]

theorem started_cons (c : Str × SockUdpParam) (cs : List (Str × SockUdpParam)) :
    started init (c :: cs) =
      if init c.1 c.2 then (c :: (started init cs).1, (started init cs).2)
      else ([], some .initFailed) := by
  rw [started, List.takeWhile_cons]
  cases hinit : init c.1 c.2 with
  | true =>
    have hall : (∀ d ∈ c :: cs, init d.1 d.2 = true) ↔ ∀ d ∈ cs, init d.1 d.2 = true := by
      rw [List.forall_mem_cons, hinit]
      exact and_iff_right rfl
    exact Prod.ext rfl (if_congr hall rfl rfl)
  | false => simp [hinit]

theorem startChannels_eq (init : Str → SockUdpParam → Bool) (ticksBindCpu : Int32)
    (hsettings : ∀ ch ∈ chs, ∀ param ∈ settings ch, Says (config ch) param)
    (habsent : ∀ ch ∈ chs, settings ch = none → ∀ name, config ch name = none) :
    startChannels config init ticksBindCpu chs =
      started init (enabled settings ticksBindCpu chs) := by
  induction chs generalizing ticksBindCpu with
  | nil => simp [startChannels, enabled, started]
  | cons ch chs ih =>
    obtain ⟨hch, hchs⟩ := List.forall_mem_cons.1 hsettings
    obtain ⟨hch', hchs'⟩ := List.forall_mem_cons.1 habsent
    have hrest := ih (-1) hchs hchs'
    cases hset : settings ch with
    | none =>
      obtain ⟨param, hparam, hclosed⟩ := getSockUdpParam_absent (hch' hset)
      rw [startChannels_skip hparam hclosed, enabled_skip (by simp [hset]), hrest]
    | some param =>
      have hparam := getSockUdpParam_says (hch param hset)
      cases hopen : param.m_open with
      | false =>
        rw [startChannels_skip hparam hopen, enabled_skip (by simp [hset, hopen]), hrest]
      | true =>
        rw [startChannels_open hparam hopen, enabled_open hset hopen, hrest, started_cons]

end

/-- **The channels of a file are opened.**  If a file says what the parameters of some
    channels of the market are and has no sections for the others, then the enabled ones are
    started in their order up to the first that fails, with the values of the file; the
    processor of the ticks goes to the first channel of the market, and to none if that
    channel is not enabled.  A channel that the file does not have is passed over. -/
theorem ostStart_channels {market : Market} {text : Str} {doc : List Entry}
    (hdoc : ∀ e ∈ doc, e.WellFormed) (htext : getlines '\n' text = doc.map Entry.text)
    {settings : Str → Option SockUdpParam}
    (hsettings : ∀ ch ∈ channels market, ∀ param ∈ settings ch,
      Says (lastValue (assignments [] doc) ch) param)
    (habsent : ∀ ch ∈ channels market, settings ch = none →
      ∀ a ∈ assignments [] doc, a.1 ≠ ch)
    (init : Str → SockUdpParam → Bool) (ticksBindCpu : Int32) :
    OstStart market (some text) init ticksBindCpu =
      started init (enabled settings ticksBindCpu (channels market)) := by
  have hconfig : (LoadConfigFile (some text)).2 = lastValue (assignments [] doc) := by
    funext s n
    rw [LoadConfigFile, htext]
    exact (load_lines hdoc {} s n).trans Option.or_none
  rw [OstStart, hconfig]
  refine startChannels_eq init ticksBindCpu hsettings fun ch hch hset name => ?_
  rw [lastValue, List.filter_eq_nil_iff.2]
  · rfl
  · intro a ha h
    exact habsent ch hch hset a ha (of_decide_eq_true h).1

/-- A file with one section, and what it says. -/
def tickMergeDocument : List Entry :=
  [⟨.heading "SHJQ_TICK_MERGE".toList [], none⟩,
    ⟨.assignment "enable".toList [] "1".toList ['\t', '\t'], some " 1: on".toList⟩,
    ⟨.assignment "cpu_id".toList [] "-1".toList [], none⟩,
    ⟨.assignment "multicast_ip".toList [Char.ofNat 34] "233.57.1.126".toList
      [Char.ofNat 34, '\t'], some " address".toList⟩,
    ⟨.assignment "multicast_port".toList [] "37126".toList ['\t'], none⟩,
    ⟨.assignment "local_ip".toList [Char.ofNat 34] "10.3.81.21".toList [Char.ofNat 34], none⟩,
    ⟨.assignment "local_port".toList [] "20010".toList [], none⟩,
    ⟨.assignment "eth_name".toList [Char.ofNat 34] "enp23s0f0".toList [Char.ofNat 34], none⟩,
    ⟨.empty, some " the other channels are not used".toList⟩]

def tickMergeParam : SockUdpParam where
  m_open := true
  m_cpu_id := -1
  m_multicast_ip := "233.57.1.126".toList
  m_multicast_port := 37126
  m_local_ip := "10.3.81.21".toList
  m_local_port := 20010
  m_eth_name := "enp23s0f0".toList

theorem ostStart_channels_tickMerge :
    OstStart .SH (some (render tickMergeDocument)) (fun _ _ => true) 5 =
      ([("SHJQ_TICK_MERGE".toList, { tickMergeParam with m_cpu_id := 5 })], none) := by
  have hdoc : ∀ e ∈ tickMergeDocument, e.WellFormed := by decide +kernel
  have hsettings : Says (lastValue (assignments [] tickMergeDocument) "SHJQ_TICK_MERGE".toList)
      tickMergeParam := by
    refine ⟨⟨1, ⟨[], ?_, by simp⟩, rfl⟩, ⟨[], ?_, by simp⟩, ⟨[], ?_, by simp⟩, ⟨[], ?_, by simp⟩,
      ?_, ?_, ?_⟩ <;> decide +kernel
  refine (@ostStart_channels .SH _ _ hdoc (getlines_render hdoc)
    (Function.update (fun _ => none) "SHJQ_TICK_MERGE".toList (some tickMergeParam)) ?_
    (by decide +kernel) _ _).trans (by decide +kernel)
  intro ch _ param hparam
  by_cases hch : ch = "SHJQ_TICK_MERGE".toList
  · subst hch
    rw [Function.update_self, Option.mem_some_iff] at hparam
    exact hparam ▸ hsettings
  · rw [Function.update_of_ne hch] at hparam
    exact absurd hparam (Option.not_mem_none param)

end Ostmd

end Mdd2
