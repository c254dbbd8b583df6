import SerialProxy.IniParser
import SerialProxy.PathOwners
import SerialProxy.RejectedEntries

/-!
# The text of a serial configuration

A configuration in the form of the README: headers with a device path, and settings
whose values are words between single spaces. The parser hands on what is written as
long as its buffers hold each header and each line; it cuts longer ones without an
error.
-/

namespace SerialProxy.ConfigText

open FaultPrograms LinkedCells CText SerialState SerialNodes SerialConfig DeviceConfig
open NodeTopology ConfigLoading LoadedTopology RejectedEntries IniParser

/-- A printable character without a meaning for the parser. -/
def wordChar (c : Char) : Bool :=
  33 ≤ c.toNat && c.toNat≤126 && c∉['[',']',';','#','=',':']

/-- A path, a suffix or a key. -/
def Word (s : CString) : Prop := s≠[] ∧ ∀ c∈s,wordChar c=true

instance (s : CString) : Decidable (Word s) :=
  decidable_of_iff (s≠[] ∧ s.all wordChar=true) (by rw [Word,List.all_eq_true])

/-- A line `key = value`. -/
structure Setting where
  /-- The key. -/
  key : CString
  /-- The words of the value. -/
  words : List CString
  /-- Keys are words. -/
  key_word : Word key
  /-- No value is empty. -/
  words_ne_nil : words≠[]
  /-- Values consist of words. -/
  words_word : ∀ word∈words,Word word

/-- The value as it is written. -/
def Setting.value (s : Setting) : CString := [' '].intercalate s.words

/-- The line as it is written. -/
def Setting.text (s : Setting) : CString := s.key++" = ".toList++s.value

/-- A header with what is below it. -/
structure Device where
  /-- The path of the header. -/
  path : CString
  /-- Blank lines and settings. -/
  lines : List (Option Setting)
  /-- Paths are words. -/
  path_word : Word path

/-- The settings below a header. -/
def Device.settings (d : Device) : List Setting := d.lines.reduceOption

/-- The lines below a header as they are written. -/
def linesText (lines : List (Option Setting)) : CString :=
  lines.flatMap fun line => ((line.map Setting.text).getD [])++['\n']

/-- The file as it is written. -/
def documentText (doc : List Device) : CString :=
  doc.flatMap fun d => '['::d.path++[']','\n']++linesText d.lines

/-- What is documented: one entry for each setting, below the header it is written under. -/
def documented (doc : List Device) : List ConfigEntry :=
  doc.flatMap fun d => d.settings.map fun s => ⟨d.path,s.key,s.value⟩

section Words

variable {s t key tail : CString} {c : Char} {lineno : ℕ} {prevName : CString}

/-- The characters of a word, by their codes. -/
theorem wordChar_iff : wordChar c=true ↔ 33 ≤ c.toNat ∧ c.toNat≤126 ∧
    c≠ '[' ∧ c≠ ']' ∧ c≠ ';' ∧ c≠ '#' ∧ c≠ '=' ∧ c≠ ':' := by
  simp [wordChar,and_assoc]

/-- No character of a word is white space. -/
theorem not_isspace_of_wordChar (h : wordChar c=true) : isspace c=false := by
  obtain ⟨hlow,-⟩ := wordChar_iff.mp h
  have hspace : c≠ ' ' := by
    rintro rfl
    exact absurd hlow (by decide)
  simp only [isspace,hspace,decide_false,Bool.false_or,Bool.and_eq_false_iff,
    decide_eq_false_iff_not]
  omega

/-- White space is stripped behind the last character that is none. -/
theorem rstrip_append_cons (hc : isspace c=false) (s t : CString) :
    rstrip (s++c::t)=s++c::rstrip t := by
  unfold rstrip
  induction t using List.reverseRecOn with
  | nil => rw [List.rdropWhile_concat_neg _ _ _ (by simp [hc]),List.rdropWhile_nil]
  | append_singleton t x ih =>
    have hassoc : s++c::(t++[x])=(s++c::t)++[x] := by simp
    rw [hassoc]
    by_cases hx : isspace x=true
    · rw [List.rdropWhile_concat_pos _ _ _ hx,List.rdropWhile_concat_pos _ _ _ hx,ih]
    · rw [List.rdropWhile_concat_neg _ _ _ hx,List.rdropWhile_concat_neg _ _ _ hx,hassoc]

/-- There is nothing to strip from a word. -/
theorem rstrip_word (h : Word s) : rstrip s=s :=
  List.rdropWhile_eq_self_iff.mpr fun hne => by
    simp [not_isspace_of_wordChar (h.2 _ (List.getLast_mem hne))]

/-- A text that does not start with white space is not skipped. -/
theorem lskip_cons (hc : isspace c=false) (s : CString) : lskip (c::s)=c::s := by
  rw [lskip,List.dropWhile_cons_of_neg (by simp [hc])]

/-- A search passes over text with none of its characters. -/
theorem findFrom_append_cons {chars : CString} (h : ∀ x∈s,x∉chars ∧ x≠ ';') (hc : c∈chars)
    (wasSpace : Bool) : findFrom chars wasSpace (s++c::t)=(s,c::t) := by
  induction s generalizing wasSpace with
  | nil => rw [List.nil_append,findFrom,if_pos (.inl hc)]
  | cons x s ih =>
    obtain ⟨hx,hx'⟩ := h x List.mem_cons_self
    have hrest := ih (fun y hy => h y (List.mem_cons_of_mem _ hy)) (isspace x)
    rw [List.cons_append,findFrom,if_neg (by simp [hx,hx']),hrest]

/-- A text without these characters and without semicolons has no place to find. -/
theorem findFrom_absent {chars : CString} (h : ∀ x∈s,x∉chars ∧ x≠ ';') (wasSpace : Bool) :
    findFrom chars wasSpace s=(s,[]) := by
  induction s generalizing wasSpace with
  | nil => rfl
  | cons x s ih =>
    obtain ⟨hx,hx'⟩ := h x List.mem_cons_self
    have hrest := ih (fun y hy => h y (List.mem_cons_of_mem _ hy)) (isspace x)
    rw [findFrom,if_neg (by simp [hx,hx']),hrest]

/-- A line that begins with a character of ASCII other than white space begins there. -/
theorem lineKind_of_start {start : CString} (hplain : ∀ x∈s,x≠ '\x00') (hhead : c.toNat≤126)
    (hspace : isspace c=false) (hs : s.head?=some c) (hstrip : rstrip s=c::start) :
    lineKind lineno prevName s=startKind prevName false (c::start) := by
  have hcut : s.takeWhile (·≠ '\x00')=s :=
    List.takeWhile_eq_self_iff.mpr fun x hx => by simp [hplain x hx]
  have hmark : marked lineno s=false := by
    have hne : Char.ofNat 0xEF≠c := by
      rintro rfl
      exact absurd hhead (by decide)
    cases s with
    | nil => simp at hs
    | cons x s =>
      obtain rfl := Option.some.inj hs
      simp [marked,bom,List.isPrefixOf,hne]
  have htext : stripped lineno s=c::start := by
    rw [stripped,hcut,hmark]
    exact hstrip
  rw [lineKind,htext,hcut,hmark,lskip_cons hspace]
  simp

/-- Stripping adds no character. -/
theorem mem_of_mem_rstrip (h : c∈rstrip s) : c∈s := (List.rdropWhile_prefix isspace s).subset h

/-- Neither does skipping. -/
theorem mem_of_mem_lskip (h : c∈lskip s) : c∈s := (List.dropWhile_suffix isspace).subset h

/-- A pair begins with a word and has its separator behind it. -/
theorem startKind_setting (prevName : CString) (hkey : Word key) (htail : ∀ x∈tail,x≠ ';') :
    startKind prevName false (key++ ' ':: '='::tail)=.pair key (rstrip (lskip tail)) := by
  obtain ⟨hne,hchars⟩ := hkey
  have hfind : findCharsOrComment (key++ ' ':: '='::tail) ['=',':']=(key++[' '],'='::tail) := by
    have hskip : ∀ x∈key++[' '],x∉['=',':'] ∧ x≠ ';' := by
      intro x hx
      rcases List.mem_append.mp hx with hx|hx
      · have hword := wordChar_iff.mp (hchars x hx)
        simp [hword]
      · obtain rfl := List.mem_singleton.mp hx
        decide
    have hfound := findFrom_append_cons (t:=tail) hskip (c:= '=') (by decide) false
    rwa [List.append_assoc] at hfound
  have hname : rstrip (key++[' '])=key := by
    rw [rstrip,List.rdropWhile_concat_pos _ _ _ (by decide)]
    exact rstrip_word ⟨hne,hchars⟩
  have hvalue : findCharsOrComment (lskip tail) []=(lskip tail,[]) :=
    findFrom_absent (fun x hx => ⟨by simp,htail x (mem_of_mem_lskip hx)⟩) false
  cases key with
  | nil => exact absurd rfl hne
  | cons k key =>
    have hk := wordChar_iff.mp (hchars k List.mem_cons_self)
    rw [List.cons_append] at hfind hname ⊢
    simp [startKind,hk,hfind,hname,hvalue]

/-- A line with a key, the separator and some text is a pair. -/
theorem lineKind_setting (hkey : Word key) (htail : ∀ x∈tail,x≠ ';' ∧ x≠ '\x00') :
    lineKind lineno prevName (key++ ' ':: '='::tail)=
      .pair key (rstrip (lskip (rstrip tail))) := by
  have hstrip : rstrip (key++ ' ':: '='::tail)=key++ ' ':: '='::rstrip tail := by
    have hsep := rstrip_append_cons (c:= '=') (by decide) (key++[' ']) tail
    rwa [List.append_assoc,List.append_assoc] at hsep
  have hkind := startKind_setting prevName hkey fun x hx => (htail x (mem_of_mem_rstrip hx)).1
  rw [← hkind]
  have hplain : ∀ x∈key++ ' ':: '='::tail,x≠ '\x00' := by
    intro x hx
    rcases List.mem_append.mp hx with hx|hx
    · rintro rfl
      exact absurd (hkey.2 _ hx) (by decide)
    · rcases List.mem_cons.mp hx with rfl|hx
      · decide
      · rcases List.mem_cons.mp hx with rfl|hx
        · decide
        · exact (htail x hx).2
  cases key with
  | nil => exact absurd rfl hkey.1
  | cons k key =>
    have hk := hkey.2 k List.mem_cons_self
    exact lineKind_of_start hplain (wordChar_iff.mp hk).2.1 (not_isspace_of_wordChar hk) rfl hstrip

end Words

/-- A line is read with its newline, if the buffer has room for it. -/
def Newline (newline : CString) : Prop := newline=[] ∨ newline=['\n']

/-- Words between single spaces. -/
structure Written (v : CString) : Prop where
  /-- Nothing else is in it. -/
  chars : ∀ c∈v,wordChar c=true ∨ c= ' '
  /-- It begins with a word. -/
  first : ∃ c t,v=c::t ∧ isspace c=false
  /-- It ends with one. -/
  last : ∃ t c,v=t++[c] ∧ isspace c=false

section Settings

variable {s : Setting} {v : CString} {c : Cursor}

/-- A word can be written as a value. -/
theorem written_word (h : Word v) : Written v where
  chars := fun c hc => .inl (h.2 c hc)
  first := by
    obtain ⟨c,t,rfl⟩ := List.exists_cons_of_ne_nil h.1
    exact ⟨c,t,rfl,not_isspace_of_wordChar (h.2 c List.mem_cons_self)⟩
  last := ⟨_,_,(List.dropLast_append_getLast h.1).symm,
    not_isspace_of_wordChar (h.2 _ (List.getLast_mem h.1))⟩

/-- So can words with spaces between them. -/
theorem written_intercalate {words : List CString} (hne : words≠[]) (h : ∀ word∈words,Word word) :
    Written ([' '].intercalate words) := by
  induction words with
  | nil => exact absurd rfl hne
  | cons word words ih =>
    have hword := written_word (h word List.mem_cons_self)
    by_cases hwords : words=[]
    · rw [hwords,List.intercalate_singleton]
      exact hword
    · have hrest := ih hwords fun w hw => h w (List.mem_cons_of_mem _ hw)
      rw [List.intercalate_cons_of_ne_nil hwords]
      refine ⟨fun x hx => ?_,?_,?_⟩
      · rcases List.mem_append.mp hx with hx|hx
        · rcases List.mem_append.mp hx with hx|hx
          · exact hword.chars x hx
          · exact .inr (List.mem_singleton.mp hx)
        · exact hrest.chars x hx
      · obtain ⟨x,t,ht,hx⟩ := hword.first
        exact ⟨x,t++[' ']++[' '].intercalate words,by rw [ht]; rfl,hx⟩
      · obtain ⟨t,x,ht,hx⟩ := hrest.last
        exact ⟨word++[' ']++t,x,by rw [ht]; simp,hx⟩

/-- So can the value of every setting. -/
theorem written_value (s : Setting) : Written s.value :=
  written_intercalate s.words_ne_nil s.words_word

/-- A written value has no semicolon, no null character and no newline. -/
theorem Written.plain (h : Written v) : ∀ x∈v,x≠ ';' ∧ x≠ '\x00' ∧ x≠ '\n' := by
  intro x hx
  rcases h.chars x hx with hword|rfl
  · refine ⟨(wordChar_iff.mp hword).2.2.2.2.1,?_,?_⟩
    all_goals
      rintro rfl
      exact absurd hword (by decide)
  · decide

/-- It ends without white space. -/
theorem Written.rstrip_append (h : Written v) (before : CString) :
    rstrip (before++v)=before++v := by
  obtain ⟨t,x,rfl,hx⟩ := h.last
  rw [← List.append_assoc]
  exact rstrip_append_cons hx (before++t) []

/-- It starts without white space. -/
theorem Written.lskip_eq (h : Written v) : lskip v=v := by
  obtain ⟨x,t,rfl,hx⟩ := h.first
  exact lskip_cons hx t

/-- The tokens of a value are its words. -/
theorem strtokSpace_value (s : Setting) : strtokSpace s.value=s.words := by
  have hspace : ∀ word∈s.words, ' '∉word := by
    intro word hword hmem
    exact absurd ((s.words_word word hword).2 _ hmem) (by decide)
  have hsplit : s.value.splitOnP (·= ' ')=s.words :=
    List.splitOn_intercalate ' ' hspace s.words_ne_nil
  rw [strtokSpace,hsplit,List.filter_eq_self]
  exact fun word hword => by simpa using (s.words_word word hword).1

/-- A setting is written as its key, an equals sign between spaces and its value. -/
theorem text_eq (s : Setting) : s.text=s.key++ ' ':: '=':: ' '::s.value := by
  simp [Setting.text]

/-- A line that is a setting calls the handler for it, below the present header. -/
theorem call_setting {tail : CString} (hkey : Word v) (htail : ∀ x∈tail,x≠ ';' ∧ x≠ '\x00') :
    c.call (v++ ' ':: '='::tail)=
      some ⟨c.sectionName,v,rstrip (lskip (rstrip tail))⟩ ∧
    (c.next (v++ ' ':: '='::tail)).sectionName=c.sectionName := by
  rw [Cursor.call,Cursor.next,lineKind_setting hkey htail]
  exact ⟨rfl,rfl⟩

/-- A setting is handed on as it is written. -/
theorem call_text (c : Cursor) (s : Setting) {newline : CString}
    (h : Newline newline) : c.call (s.text++newline)=some ⟨c.sectionName,s.key,s.value⟩ ∧
      (c.next (s.text++newline)).sectionName=c.sectionName := by
  have hv := written_value s
  have hplain : ∀ x∈ ' '::s.value++newline,x≠ ';' ∧ x≠ '\x00' := by
    intro x hx
    rcases List.mem_append.mp hx with hx|hx
    · rcases List.mem_cons.mp hx with rfl|hx
      · decide
      · exact ⟨(hv.plain x hx).1,(hv.plain x hx).2.1⟩
    · rcases h with rfl|rfl
      · cases hx
      · obtain rfl := List.mem_singleton.mp hx
        decide
  have hstrip : rstrip (' '::s.value++newline)= ' '::s.value := by
    rcases h with rfl|rfl
    · rw [List.append_nil]
      exact hv.rstrip_append [' ']
    · rw [rstrip,List.rdropWhile_concat_pos _ _ _ (by decide)]
      exact hv.rstrip_append [' ']
  have hskip : lskip (' '::s.value)=s.value := hv.lskip_eq
  have hlast : rstrip s.value=s.value := hv.rstrip_append []
  have hcall := call_setting (c:=c) s.key_word hplain
  rw [hstrip,hskip,hlast] at hcall
  rw [text_eq,List.append_assoc]
  exact hcall

/-- A space in front of some text is skipped. -/
theorem lskip_rstrip_length (t : CString) : (lskip (rstrip (' '::t))).length≤t.length := by
  have hprefix : rstrip (' '::t) <+: ' '::t := List.rdropWhile_prefix isspace _
  cases hs : rstrip (' '::t) with
  | nil => exact Nat.zero_le _
  | cons x u =>
    rw [hs] at hprefix
    obtain ⟨rfl,hu⟩ := List.cons_prefix_cons.mp hprefix
    rw [lskip,List.dropWhile_cons_of_pos (by decide)]
    exact (lskip_length u).trans hu.length_le

/-- The value of a line that is read in parts is shortened. -/
theorem call_cut (c : Cursor) (s : Setting) (hkey : s.key.length+2 < iniMaxLine)
    (hlong : iniMaxLine ≤ s.text.length) :
    ∃ v,c.call (s.text.take (iniMaxLine-1))=some ⟨c.sectionName,s.key,v⟩ ∧ v≠s.value := by
  have hv := written_value s
  obtain ⟨room,hroom⟩ : ∃ room,iniMaxLine-1=s.key.length+2+room :=
    ⟨iniMaxLine-1-(s.key.length+2),by omega⟩
  have hsplit : s.text.take (iniMaxLine-1)=s.key++ ' ':: '='::(' '::s.value).take room := by
    rw [text_eq,hroom,List.take_append,List.take_of_length_le (by omega),
      show s.key.length+2+room-s.key.length=room+2 by omega]
    rfl
  have hplain : ∀ x∈(' '::s.value).take room,x≠ ';' ∧ x≠ '\x00' := by
    intro x hx
    rcases List.mem_cons.mp (List.mem_of_mem_take hx) with rfl|hx
    · decide
    · exact ⟨(hv.plain x hx).1,(hv.plain x hx).2.1⟩
  refine ⟨_,by rw [hsplit]; exact (call_setting s.key_word hplain).1,fun he => ?_⟩
  have hlength := congrArg List.length he
  have hcut := rstrip_length (lskip (rstrip ((' '::s.value).take room)))
  have htext : s.text.length=s.key.length+3+s.value.length := by
    rw [text_eq,List.length_append]
    simp only [List.length_cons]
    omega
  have hpos : 0<s.value.length := by
    obtain ⟨x,t,hx,-⟩ := hv.first
    rw [hx]
    exact Nat.succ_pos _
  cases room with
  | zero =>
    have hnil : (lskip (rstrip ((' '::s.value).take 0))).length=0 := rfl
    omega
  | succ room =>
    have hfront := lskip_rstrip_length (s.value.take room)
    rw [List.take_succ_cons] at hcut hlength
    rw [List.length_take] at hfront
    omega

end Settings

section Headers

variable {c : Cursor} {path l rest : CString}

/-- A whole header is a section. -/
theorem lineKind_header (lineno : ℕ) (prevName : CString) (h : Word path) :
    lineKind lineno prevName ('['::path++[']','\n'])=.header path := by
  have hstrip : rstrip ('['::path++[']','\n'])= '['::(path++[']']) :=
    rstrip_append_cons (c:= ']') (by decide) ('['::path) ['\n']
  have hplain : ∀ x∈ '['::path++[']','\n'],x≠ '\x00' := by
    rintro x hx rfl
    rcases List.mem_append.mp hx with hx|hx
    · rcases List.mem_cons.mp hx with hx|hx
      · exact absurd hx (by decide)
      · exact absurd (h.2 _ hx) (by decide)
    · exact absurd hx (by decide)
  have hfind : findCharsOrComment (path++[']']) [']']=(path,[']']) := by
    refine findFrom_append_cons (fun x hx => ?_) (by decide) false
    have hword := wordChar_iff.mp (h.2 x hx)
    simp [hword]
  rw [lineKind_of_start hplain (by decide) (by decide) rfl hstrip]
  simp [startKind,hfind]

/-- The line of a section calls no handler and sets the section. -/
theorem next_header (c : Cursor) (h : Word path) (hfits : path.length < maxSection) :
    c.call ('['::path++[']','\n'])=none ∧
      (c.next ('['::path++[']','\n'])).sectionName=path := by
  rw [Cursor.call,Cursor.next,lineKind_header _ _ h]
  exact ⟨rfl,List.take_of_length_le (Nat.le_sub_one_of_lt hfits)⟩

/-- A blank line is ignored. -/
theorem lineKind_blank {newline : CString} (h : Newline newline) (lineno : ℕ)
    (prevName : CString) : lineKind lineno prevName newline=.ignored := by
  have hmark : bom.isPrefixOf newline=false := by
    rcases h with rfl|rfl <;> decide
  have hcut : newline.takeWhile (·≠ '\x00')=newline := by
    rcases h with rfl|rfl <;> decide
  have hstrip : rstrip newline=[] := by
    rcases h with rfl|rfl <;> decide
  have htext : stripped lineno newline=[] := by
    rw [stripped,hcut,marked,hmark,Bool.and_false]
    exact hstrip
  rw [lineKind,htext]
  rfl

/-- It keeps the section. -/
theorem next_blank (c : Cursor) :
    c.call ['\n']=none ∧ (c.next ['\n']).sectionName=c.sectionName := by
  rw [Cursor.call,Cursor.next,lineKind_blank (.inr rfl)]
  exact ⟨rfl,rfl⟩

/-- A line that starts with a bracket is a section or malformed. -/
theorem startKind_bracket (prevName l : CString) :
    (∃ name,startKind prevName false ('['::l)=.header name) ∨
      startKind prevName false ('['::l)=.malformed := by
  have hcomment : ¬ ('['= ';' ∨ '['= '#') := by decide
  have hindent : ¬ (prevName≠[] ∧ false=true) := by simp
  rw [startKind,if_neg hcomment,if_neg hindent,if_pos rfl]
  split
  · exact .inl ⟨_,rfl⟩
  · exact .inr rfl

/-- A line without white space and separators never calls the handler. -/
theorem call_silent (c : Cursor) {newline : CString}
    (hl : ∀ x∈l,wordChar x=true ∨ x= '[' ∨ x= ']') (hn : Newline newline) :
    c.call (l++newline)=none := by
  have hchar : ∀ x∈l,x.toNat≤126 ∧ isspace x=false ∧ x≠ '\x00' ∧ x≠ ';' ∧ x≠ '#' ∧ x≠ '=' ∧
      x≠ ':' := by
    intro x hx
    rcases hl x hx with hword|rfl|rfl
    · have hbounds := wordChar_iff.mp hword
      refine ⟨hbounds.2.1,not_isspace_of_wordChar hword,?_,hbounds.2.2.2.2⟩
      rintro rfl
      exact absurd hword (by decide)
    · decide
    · decide
  cases l with
  | nil => rw [List.nil_append,Cursor.call,lineKind_blank hn]
  | cons x l =>
    have hself : rstrip (x::l)=x::l := List.rdropWhile_eq_self_iff.mpr fun hne => by
      simp [(hchar _ (List.getLast_mem hne)).2.1]
    have hstrip : rstrip (x::l++newline)=x::l := by
      rcases hn with rfl|rfl
      · rw [List.append_nil]
        exact hself
      · rw [rstrip,List.rdropWhile_concat_pos _ _ _ (by decide)]
        exact hself
    have hplain : ∀ y∈x::l++newline,y≠ '\x00' := by
      intro y hy
      rcases List.mem_append.mp hy with hy|hy
      · exact (hchar y hy).2.2.1
      · rcases hn with rfl|rfl
        · cases hy
        · obtain rfl := List.mem_singleton.mp hy
          decide
    have hfind : findCharsOrComment (x::l) ['=',':']=(x::l,[]) := findFrom_absent (fun y hy => by
      have hy := hchar y hy
      simp [hy]) false
    obtain ⟨hascii,hspace,-,hsemi,hhash,-⟩ := hchar x List.mem_cons_self
    rw [Cursor.call,lineKind_of_start hplain hascii hspace rfl hstrip]
    by_cases hx : x= '['
    · subst hx
      rcases startKind_bracket (c.prevName) l with ⟨name,hk⟩|hk <;> rw [hk]
    · simp [startKind,hsemi,hhash,hx,hfind]

end Headers

/-- The entry of a setting below a header. -/
def entryOf (path : CString) (s : Setting) : ConfigEntry := ⟨path,s.key,s.value⟩

section Lines

variable {c : Cursor} {path l rest : CString} {lines : List (Option Setting)} {s : Setting}

/-- The reader splits a line and does not mix it with the next one. -/
theorem linesOf_parts (hl : '\n'∉l) (rest : CString) : ∃ parts,
    linesOf (l++ '\n'::rest)=parts++linesOf rest ∧
    ∀ part∈parts,∃ front newline,part=front++newline ∧ Newline newline ∧ ∀ x∈front,x∈l := by
  generalize hn : l.length=n
  induction n using Nat.strong_induction_on generalizing l with
  | _ n ih =>
    rcases Nat.lt_or_ge l.length (iniMaxLine-1) with hfits|hlong
    · refine ⟨[l++['\n']],linesOf_of_fits hl hfits,fun part hp => ?_⟩
      exact ⟨l,['\n'],List.mem_singleton.mp hp,.inr rfl,fun x hx => hx⟩
    · have hlt : (l.drop (iniMaxLine-1)).length<n := by
        rw [List.length_drop,← hn]
        have hpos : 0 < iniMaxLine-1 := by decide
        omega
      obtain ⟨parts,hparts,hmem⟩ := ih _ hlt (fun hd => hl (List.mem_of_mem_drop hd)) rfl
      refine ⟨l.take (iniMaxLine-1)::parts,?_,fun part hp => ?_⟩
      · rw [linesOf_of_long hl hlong,hparts]
        rfl
      · rcases List.mem_cons.mp hp with rfl|hp
        · exact ⟨_,[],(List.append_nil _).symm,.inl rfl,fun x hx => List.mem_of_mem_take hx⟩
        · obtain ⟨front,newline,he,hnew,hx⟩ := hmem part hp
          exact ⟨front,newline,he,hnew,fun x hf => List.mem_of_mem_drop (hx x hf)⟩

/-- Lines that call no handler give no entry. -/
theorem callsOf_silent {parts : List CString} (c : Cursor)
    (h : ∀ part∈parts,∀ c : Cursor,c.call part=none) : callsOf c parts=[] := by
  induction parts generalizing c with
  | nil => rfl
  | cons part parts ih =>
    rw [callsOf,h part List.mem_cons_self,ih _ fun p hp => h p (List.mem_cons_of_mem _ hp)]
    rfl

/-- A blank line is read first. -/
theorem linesOf_blank (rest : CString) : linesOf ('\n'::rest)=['\n']::linesOf rest :=
  linesOf_of_fits (l:=[]) List.not_mem_nil (by decide)

/-- The line of a section consists of the characters of its path and the brackets. -/
theorem header_chars (h : Word path) :
    ∀ x∈ '['::path++[']'],wordChar x=true ∨ x= '[' ∨ x= ']' := by
  intro x hx
  rcases List.mem_append.mp hx with hx|hx
  · rcases List.mem_cons.mp hx with rfl|hx
    · exact .inr (.inl rfl)
    · exact .inl (h.2 x hx)
  · exact .inr (.inr (List.mem_singleton.mp hx))

/-- There is no newline in it. -/
theorem newline_not_mem_header (h : Word path) : '\n'∉ '['::path++[']'] := by
  intro hm
  rcases header_chars h _ hm with hm|hm|hm <;> exact absurd hm (by decide)

/-- Its newline belongs to the text behind it. -/
theorem header_append (path rest : CString) :
    '['::path++[']','\n']++rest=('['::path++[']'])++ '\n'::rest := by
  simp

/-- A header alone never calls the handler, however long it is. -/
theorem header_silent (c : Cursor) (h : Word path) (rest : CString) :
    ∃ c',callsOf c (linesOf ('['::path++[']','\n']++rest))=callsOf c' (linesOf rest) := by
  obtain ⟨parts,hparts,hmem⟩ := linesOf_parts (newline_not_mem_header h) rest
  have hsilent : callsOf c parts=[] := callsOf_silent c fun part hp c => by
    obtain ⟨front,newline,rfl,hn,hx⟩ := hmem part hp
    exact call_silent c (fun x hf => header_chars h x (hx x hf)) hn
  refine ⟨c.behind parts,?_⟩
  rw [header_append,hparts,callsOf_append,hsilent,List.nil_append]

/-- A header that fits the section buffer is the section of what follows. -/
theorem header_kept (c : Cursor) (h : Word path) (hfits : path.length < maxSection)
    (rest : CString) : ∃ c',c'.sectionName=path ∧
      callsOf c (linesOf ('['::path++[']','\n']++rest))=callsOf c' (linesOf rest) := by
  obtain ⟨hcall,hnext⟩ := next_header c h hfits
  have hlength : ('['::path++[']']).length < iniMaxLine-1 := by
    have hmax : maxSection+2 < iniMaxLine-1 := by decide
    simp only [List.length_append,List.length_cons,List.length_nil]
    omega
  have hwhole : '['::path++[']']++['\n']= '['::path++[']','\n'] := by simp
  refine ⟨_,hnext,?_⟩
  rw [header_append,linesOf_of_fits (newline_not_mem_header h) hlength,callsOf,hwhole,hcall]
  rfl

/-- There is no newline in a setting. -/
theorem newline_not_mem_text (s : Setting) : '\n'∉s.text := by
  rw [text_eq]
  intro hm
  rcases List.mem_append.mp hm with hm|hm
  · exact absurd (s.key_word.2 _ hm) (by decide)
  · have hv : '\n'∉s.value := fun hx => ((written_value s).plain _ hx).2.2 rfl
    simp [hv] at hm

/-- A line that fits the buffer, blank or a setting, gives its entry. -/
theorem line_kept (c : Cursor) (line : Option Setting) (rest : CString)
    (hfits : ∀ s∈line,s.text.length < iniMaxLine) : ∃ c',c'.sectionName=c.sectionName ∧
      callsOf c (linesOf (linesText [line]++rest))=
        (line.map (entryOf c.sectionName)).toList++callsOf c' (linesOf rest) := by
  obtain ⟨hblank,hsame⟩ := next_blank c
  cases line with
  | none =>
    refine ⟨_,hsame,?_⟩
    rw [show linesText [none]++rest= '\n'::rest from rfl,linesOf_blank,callsOf,hblank]
    rfl
  | some s =>
    have hstream : linesText [some s]++rest=s.text++ '\n'::rest := by simp [linesText]
    have hs := hfits s rfl
    rw [hstream]
    rcases Nat.lt_or_ge s.text.length (iniMaxLine-1) with hshort|hlong
    · obtain ⟨hcall,hnext⟩ := call_text c s (.inr rfl)
      refine ⟨_,hnext,?_⟩
      rw [linesOf_of_fits (newline_not_mem_text s) hshort,callsOf,hcall]
      rfl
    -- the line fills the buffer, and its newline is read as a blank line
    · obtain ⟨hcall,hnext⟩ := call_text c s (show Newline [] from .inl rfl)
      rw [List.append_nil] at hcall hnext
      obtain ⟨hblank',hsame'⟩ := next_blank (c.next s.text)
      have hall : s.text.take (iniMaxLine-1)=s.text := List.take_of_length_le (by omega)
      have hnone : s.text.drop (iniMaxLine-1)=[] := List.drop_of_length_le (by omega)
      refine ⟨_,hsame'.trans hnext,?_⟩
      rw [linesOf_of_long (newline_not_mem_text s) hlong,hall,hnone,List.nil_append,
        linesOf_blank,callsOf,callsOf,hcall,hblank']
      rfl

/-- The text of the lines is that of the first one and of the rest. -/
theorem linesText_cons (line : Option Setting) (lines : List (Option Setting)) :
    linesText (line::lines)++rest=linesText [line]++(linesText lines++rest) := by
  simp [linesText]

/-- The settings of the lines are that of the first one, if any, and those of the rest. -/
theorem reduceOption_cons (line : Option Setting) (lines : List (Option Setting)) :
    (line::lines).reduceOption=line.toList++lines.reduceOption := by
  cases line <;> rfl

/-- Lines that fit the buffer give their entries, below the present header. -/
theorem lines_kept (c : Cursor) (lines : List (Option Setting)) (rest : CString)
    (h : ∀ s∈lines.reduceOption,s.text.length < iniMaxLine) : ∃ c',
    callsOf c (linesOf (linesText lines++rest))=
      lines.reduceOption.map (entryOf c.sectionName)++callsOf c' (linesOf rest) := by
  induction lines generalizing c with
  | nil => exact ⟨c,rfl⟩
  | cons line lines ih =>
    rw [reduceOption_cons] at h ⊢
    obtain ⟨c₁,hsame,hline⟩ := line_kept c line (linesText lines++rest)
      fun s hs => h s (List.mem_append_left _ (Option.mem_toList.mpr hs))
    obtain ⟨c',hlines⟩ := ih c₁ fun s hs => h s (List.mem_append_right _ hs)
    refine ⟨c',?_⟩
    rw [linesText_cons,hline,hlines,hsame,List.map_append,List.append_assoc]
    cases line <;> rfl

/-- With a longer line the handler is called with something else. -/
theorem lines_cut (c : Cursor) (hkeys : ∀ s∈lines.reduceOption,s.key.length+2 < iniMaxLine)
    (hlong : ∃ s∈lines.reduceOption,iniMaxLine ≤ s.text.length) (tail : List ConfigEntry) :
    callsOf c (linesOf (linesText lines++rest))≠
      lines.reduceOption.map (entryOf c.sectionName)++tail := by
  induction lines generalizing c with
  | nil =>
    obtain ⟨s,hs,-⟩ := hlong
    cases hs
  | cons line lines ih =>
    rw [reduceOption_cons] at hkeys hlong ⊢
    by_cases hfits : ∀ s∈line,s.text.length < iniMaxLine
    · obtain ⟨c₁,hsame,hline⟩ := line_kept c line (linesText lines++rest) hfits
      have hrest : ∃ s∈lines.reduceOption,iniMaxLine ≤ s.text.length := by
        obtain ⟨s,hs,hl⟩ := hlong
        rcases List.mem_append.mp hs with hs|hs
        · exact absurd (hfits s (Option.mem_toList.mp hs)) (Nat.not_lt_of_le hl)
        · exact ⟨s,hs,hl⟩
      intro he
      rw [linesText_cons,hline,List.map_append,List.append_assoc,← hsame] at he
      have hsplit : (line.map (entryOf c₁.sectionName)).toList=
          line.toList.map (entryOf c₁.sectionName) := by
        cases line <;> rfl
      rw [hsplit] at he
      exact ih c₁ (fun s hs => hkeys s (List.mem_append_right _ hs)) hrest
        (List.append_cancel_left he)
    · cases line with
      | none => exact absurd (fun s hs => nomatch hs) hfits
      | some s =>
        have hs : iniMaxLine ≤ s.text.length := by
          by_contra hlt
          exact hfits fun s' hs' => by
            obtain rfl := Option.some.inj hs'
            exact Nat.lt_of_not_le hlt
        obtain ⟨v,hcall,hv⟩ := call_cut c s
          (hkeys s (List.mem_append_left _ (List.mem_singleton_self s))) hs
        intro he
        rw [linesText_cons,show linesText [some s]++(linesText lines++rest)=
          s.text++ '\n'::(linesText lines++rest) by simp [linesText],
          linesOf_of_long (newline_not_mem_text s) (by omega),callsOf,hcall] at he
        exact hv (congrArg ConfigEntry.value (List.cons.inj he).1)

end Lines

/-- The buffers hold each header with a setting below it, and each setting. -/
structure Unabridged (doc : List Device) : Prop where
  /-- Headers fit `MAX_SECTION`. -/
  headers : ∀ d∈doc,d.settings≠[] → d.path.length < maxSection
  /-- Lines fit `INI_MAX_LINE`. -/
  lines : ∀ d∈doc,∀ s∈d.settings,s.text.length < iniMaxLine

section Documents

variable {doc : List Device} {d : Device} {e : ConfigEntry}

/-- The documented entries are those of the settings of the devices. -/
theorem mem_documented : e∈documented doc ↔ ∃ d∈doc,∃ s∈d.settings,entryOf d.path s=e := by
  simp only [documented,List.mem_flatMap,List.mem_map,entryOf]

/-- The text of a document is that of its first device and of the rest. -/
theorem documentText_cons (d : Device) (doc : List Device) : documentText (d::doc)=
    '['::d.path++[']','\n']++(linesText d.lines++documentText doc) := by
  simp [documentText]

/-- A device without settings leaves no entry. -/
theorem device_silent (doc : List Device) (c : Cursor) (h : d.settings=[]) :
    ∃ c',callsOf c (linesOf (documentText (d::doc)))=callsOf c' (linesOf (documentText doc)) := by
  obtain ⟨c₁,hheader⟩ := header_silent c d.path_word (linesText d.lines++documentText doc)
  have hlines : d.lines.reduceOption=[] := h
  obtain ⟨c',hrest⟩ := lines_kept c₁ d.lines (documentText doc) (by simp [hlines])
  refine ⟨c',?_⟩
  rw [documentText_cons,hheader,hrest,hlines]
  rfl

/-- A device without settings has no entry. -/
theorem documented_cons_silent (h : d.settings=[]) : documented (d::doc)=documented doc := by
  simp [documented,h]

/-- When the buffers hold everything the handler is called as documented. -/
theorem callsOf_documented (c : Cursor) (h : Unabridged doc) :
    callsOf c (linesOf (documentText doc))=documented doc := by
  induction doc generalizing c with
  | nil => rfl
  | cons d doc ih =>
    have hrest : Unabridged doc := ⟨fun d' hd => h.headers d' (List.mem_cons_of_mem _ hd),
      fun d' hd => h.lines d' (List.mem_cons_of_mem _ hd)⟩
    by_cases hs : d.settings=[]
    · obtain ⟨c',hcalls⟩ := device_silent doc c hs
      rw [hcalls,documented_cons_silent hs]
      exact ih c' hrest
    · obtain ⟨c₁,hpath,hheader⟩ := header_kept c d.path_word
        (h.headers d List.mem_cons_self hs) (linesText d.lines++documentText doc)
      obtain ⟨c',hlines⟩ := lines_kept c₁ d.lines (documentText doc)
        (h.lines d List.mem_cons_self)
      rw [documentText_cons,hheader,hlines,hpath,ih c' hrest]
      rfl

/-- When they hold the headers but not a line, it is not. -/
theorem callsOf_cut (c : Cursor) (hheaders : ∀ d∈doc,d.settings≠[] → d.path.length < maxSection)
    (hkeys : ∀ d∈doc,∀ s∈d.settings,s.key.length+2 < iniMaxLine)
    (hlong : ∃ d∈doc,∃ s∈d.settings,iniMaxLine ≤ s.text.length) :
    callsOf c (linesOf (documentText doc))≠documented doc := by
  induction doc generalizing c with
  | nil =>
    obtain ⟨d,hd,-⟩ := hlong
    cases hd
  | cons d doc ih =>
    have hrest := fun c => ih c (fun d' hd => hheaders d' (List.mem_cons_of_mem _ hd))
      fun d' hd => hkeys d' (List.mem_cons_of_mem _ hd)
    have hlater : (∀ s∈d.settings,s.text.length < iniMaxLine) →
        ∃ d∈doc,∃ s∈d.settings,iniMaxLine ≤ s.text.length := by
      intro hfits
      obtain ⟨d',hd,s,hs,hl⟩ := hlong
      rcases List.mem_cons.mp hd with rfl|hd
      · exact absurd (hfits s hs) (Nat.not_lt_of_le hl)
      · exact ⟨d',hd,s,hs,hl⟩
    by_cases hs : d.settings=[]
    · obtain ⟨c',hcalls⟩ := device_silent doc c hs
      rw [hcalls,documented_cons_silent hs]
      exact hrest c' (hlater (by simp [hs]))
    · obtain ⟨c₁,hpath,hheader⟩ := header_kept c d.path_word
        (hheaders d List.mem_cons_self hs) (linesText d.lines++documentText doc)
      have hsplit : documented (d::doc)=
          d.lines.reduceOption.map (entryOf c₁.sectionName)++documented doc := by
        rw [hpath]
        rfl
      rw [documentText_cons,hheader,hsplit]
      by_cases hfits : ∀ s∈d.settings,s.text.length < iniMaxLine
      · obtain ⟨c',hlines⟩ := lines_kept c₁ d.lines (documentText doc) hfits
        intro he
        rw [hlines] at he
        exact hrest c' (hlater hfits) (List.append_cancel_left he)
      · refine lines_cut c₁ (hkeys d List.mem_cons_self) ?_ _
        by_contra hnone
        exact hfits fun s hs => Nat.lt_of_not_le fun hl => hnone ⟨s,hs,hl⟩

/-- The handler is called as documented exactly when the buffers hold everything. -/
theorem parsed_iff : parsed (documentText doc)=documented doc ↔ Unabridged doc := by
  refine ⟨fun h => ?_,callsOf_documented _⟩
  have hbounded : ∀ d∈doc,∀ s∈d.settings,Bounded (entryOf d.path s) := by
    intro d hd s hs
    refine parsed_bounded (documentText doc) _ ?_
    rw [h]
    exact mem_documented.mpr ⟨d,hd,s,hs,rfl⟩
  have hheaders : ∀ d∈doc,d.settings≠[] → d.path.length < maxSection := by
    intro d hd hne
    obtain ⟨s,hs⟩ := List.exists_mem_of_ne_nil _ hne
    exact (hbounded d hd s hs).sectionName
  have hkeys : ∀ d∈doc,∀ s∈d.settings,s.key.length+2 < iniMaxLine := by
    intro d hd s hs
    rcases (hbounded d hd s hs).name with hname|hvalue
    · exact hname
    · obtain ⟨x,t,hx,-⟩ := (written_value s).first
      exact absurd (hx.symm.trans hvalue) (List.cons_ne_nil x t)
  refine ⟨hheaders,fun d hd s hs => ?_⟩
  by_contra hlong
  exact callsOf_cut _ hheaders hkeys ⟨d,hd,s,hs,Nat.le_of_not_lt hlong⟩ h

end Documents

/-- A header has a setting below it that the callback knows. -/
def Heads (doc : List Device) (path : CString) : Prop :=
  ∃ d∈doc,d.path=path ∧ ∃ s∈d.settings,KnownKey (entryOf path s)

/-- A suffix is written in a section. -/
def Lists (doc : List Device) (path suffix : CString) : Prop :=
  ∃ d∈doc,d.path=path ∧ ∃ s∈d.settings,(entryOf path s).isVirtuals=true ∧ suffix∈s.words

/-- Names are loaded as they are written. -/
structure NamesSurvive (doc : List Device) (w : World) (shape : Shape) : Prop where
  /-- Each setting is handed on once, in order, with its header, its key and its whole value. -/
  calls : parsed (documentText doc)=documented doc
  /-- The masters are the headers of known settings. -/
  masters : ∀ path,path∈shape.map (fun g => nameAt w g.1) ↔ Heads doc path
  /-- Different headers are different masters. -/
  once : (shape.map fun g => nameAt w g.1).Nodup
  /-- The virtuals of a master are those of the suffixes written in its sections. -/
  virtuals : ∀ g∈shape,∀ name,name∈g.2.map (nameAt w) ↔
    ∃ suffix,Lists doc (nameAt w g.1) suffix ∧ name=virtualPath (nameAt w g.1) suffix

section Loading

variable {doc : List Device} {s t path suffix stream filename : CString}
variable {files : CString → Option CString}

/-- A part of a text is no longer than the text. -/
theorem length_of_mem_splitOnP {p : Char → Bool} (h : t∈s.splitOnP p) : t.length ≤ s.length := by
  induction s generalizing t with
  | nil =>
    rw [List.splitOnP_nil,List.mem_singleton] at h
    rw [h]
  | cons x s ih =>
    obtain ⟨u,us,hsplit⟩ := List.exists_cons_of_ne_nil (List.splitOnP_ne_nil p s)
    have hu : u.length ≤ s.length := ih (hsplit ▸ List.mem_cons_self)
    have htail : ∀ v∈us,v.length ≤ s.length := fun v hv => ih (hsplit ▸ List.mem_cons_of_mem _ hv)
    rw [List.splitOnP_cons_eq_if_modifyHead,hsplit] at h
    rw [List.length_cons]
    split at h
    · rcases List.mem_cons.mp h with rfl|h
      · exact Nat.zero_le _
      · exact Nat.le_succ_of_le (ih (hsplit ▸ h))
    · rcases List.mem_cons.mp h with rfl|h
      · exact Nat.succ_le_succ hu
      · exact Nat.le_succ_of_le (htail t h)

/-- The names of a parsed text fit their buffers. -/
theorem fits_parsed (stream : CString) : Fits (parsed stream) := by
  have hmax : maxSection+iniMaxLine+1<pathMax := by decide
  have hjoin : ∀ e∈parsed stream,∀ t : CString,t.length≤e.value.length →
      (virtualPath e.sectionName t).length<pathMax := by
    intro e he t ht
    obtain ⟨hsection,hvalue,-⟩ := parsed_bounded stream e he
    rw [virtualPath,List.length_append,List.length_cons]
    omega
  refine ⟨fun e he => ?_,fun e he _ t ht => hjoin e he t ?_,
    fun e he _ => hjoin e he _ (Nat.le_refl _)⟩
  · have hsection := (parsed_bounded stream e he).sectionName
    omega
  · exact length_of_mem_splitOnP (List.mem_filter.mp ht).1

/-- The tokens of a section are the suffixes written in it. -/
theorem mem_tokensOf : suffix∈tokensOf path (documented doc) ↔ Lists doc path suffix := by
  simp only [tokensOf,List.mem_flatMap,List.mem_filter,mem_documented]
  constructor
  · rintro ⟨e,⟨⟨d,hd,s,hs,rfl⟩,hkey⟩,ht⟩
    rw [Bool.and_eq_true,decide_eq_true_eq] at hkey
    obtain ⟨rfl,hkey⟩ := hkey
    exact ⟨d,hd,rfl,s,hs,hkey,by rwa [← strtokSpace_value s]⟩
  · rintro ⟨d,hd,rfl,s,hs,hkey,ht⟩
    refine ⟨_,⟨⟨d,hd,s,hs,rfl⟩,?_⟩,by rwa [← strtokSpace_value s] at ht⟩
    rw [hkey,Bool.and_true,decide_eq_true_eq]
    rfl

/-- Names survive exactly when the buffers hold everything and each header with a setting
below it has one that the callback knows. -/
theorem names_survive_iff (hfile : files filename=some (documentText doc)) :
    ∃ w shape,serialLoadConfig (some filename) files World.boot=.ok () w ∧ Topology w shape ∧
      (NamesSurvive doc w shape ↔ Unabridged doc ∧
        ∀ d∈doc,d.settings≠[] → Heads doc d.path) := by
  have hfit := fits_parsed (documentText doc)
  obtain ⟨tree,w,shape,ht,hx,hr⟩ := loadEntries_of_fits hfit
  have hmasters : ∀ path,path∈shape.map (fun g => nameAt w g.1) ↔
      path∈(parsed (documentText doc)).map ConfigEntry.sectionName := by
    intro path
    rw [master_names hr.described]
    exact hfit.mem_names ht
  refine ⟨w,shape,by rw [serialLoadConfig_eq hfile]; exact hx,hr.topology,fun h => ?_,
    fun ⟨hunabridged,hheads⟩ => ?_⟩
  · refine ⟨parsed_iff.mp h.calls,fun d hd hne => ?_⟩
    obtain ⟨s,hs⟩ := List.exists_mem_of_ne_nil _ hne
    rw [← h.masters,hmasters,h.calls]
    exact List.mem_map.mpr ⟨_,mem_documented.mpr ⟨d,hd,s,hs,rfl⟩,rfl⟩
  · have hcalls := parsed_iff.mpr hunabridged
    refine ⟨hcalls,fun path => ?_,?_,fun g hg name => ?_⟩
    · rw [hmasters,hcalls,List.mem_map]
      constructor
      · rintro ⟨e,he,rfl⟩
        obtain ⟨d,hd,s,hs,rfl⟩ := mem_documented.mp he
        exact hheads d hd (List.ne_nil_of_mem hs)
      · rintro ⟨d,hd,rfl,s,hs,-⟩
        exact ⟨_,mem_documented.mpr ⟨d,hd,s,hs,rfl⟩,rfl⟩
    · rw [master_names hr.described]
      exact hfit.names_nodup ht
    · obtain ⟨m,hm,hdesc⟩ := matched_left hr.described hg
      rw [virtual_paths hfit ht hm hdesc name,hcalls]
      simp only [mem_tokensOf]

/-- A device with one virtual. -/
def oneVirtual (path suffix : CString) (hpath : Word path) (hsuffix : Word suffix) : Device where
  path := path
  lines := [some ⟨"virtuals".toList,[suffix],by decide,List.cons_ne_nil _ _,
    by simpa using hsuffix⟩]
  path_word := hpath

/-- A file whose names survive. -/
def shortHeader : List Device :=
  [oneVirtual "/dev/ttyS5".toList "a".toList (by decide) (by decide)]

/-- The sample has a header that is short enough. -/
theorem names_survive_iff_sample : ∃ w shape,
    serialLoadConfig (some "serial.ini".toList) (fun _ => some (documentText shortHeader))
      World.boot=.ok () w ∧ Topology w shape ∧
      (NamesSurvive shortHeader w shape ↔ Unabridged shortHeader ∧
        ∀ d∈shortHeader,d.settings≠[] → Heads shortHeader d.path) :=
  names_survive_iff rfl

/-- A file with one device whose path has 56 characters. -/
def longHeader : List Device :=
  [oneVirtual "/dev/serial/by-id/usb-FTDI_FT232R_USB_UART_A1-if00-port0".toList "a".toList
    (by decide) (by decide)]

/-- The daemon takes the first 49 characters for the path, without an error. -/
theorem long_header_cut : ∃ w,
    serialLoadConfig (some "serial.ini".toList) (fun _ => some (documentText longHeader))
      World.boot=.ok () w ∧
    (nodeAt w 0).name="/dev/serial/by-id/usb-FTDI_FT232R_USB_UART_A1-if0".toList ∧
    ∀ shape,¬ NamesSurvive longHeader w shape := by
  have hload := eq_ok_of_returns (r:=serialLoadConfig (some "serial.ini".toList)
    (fun _ => some (documentText longHeader)) World.boot) (by decide +kernel)
  refine ⟨_,hload,by decide +kernel,fun shape h => ?_⟩
  exact absurd h.calls (by decide +kernel)

end Loading

end SerialProxy.ConfigText
