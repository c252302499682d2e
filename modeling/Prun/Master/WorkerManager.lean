import Mathlib.Data.String.Basic

/-!
# Reading the host list

`ReadHosts` loads the master's host list from a file.  While `file.good()` it reads a line with
`getline` and appends it to `hosts`, unless the line begins with a digit and
`boost::asio::ip::address::from_string` rejects it; the address parser is the parameter `isIp`.

`getline` extracts characters up to an LF, which it consumes, or up to the end of the file,
where it sets `eofbit`, and `failbit` too when it extracted nothing.  The loop therefore calls
it once for every piece of the file between LFs, as `List.splitOn` cuts it: a file that ends in
an LF has an empty last piece, and the empty file has one empty piece.  The first character of
an empty host is its terminating `'\0'`, which is no digit, so every empty piece, and every blank
line, is appended as a host.  The lines of the file as the documentation reads them, split at LF
with no empty line after a final LF and the blank ones skipped, are what the code appends exactly
when no piece is blank.
-/

namespace Prun
namespace Master

/-- An `std::ifstream` on the host file as `getline` sees it.  Reading a file that opened does
not fail here, so `badbit` stays clear. -/
structure Ifstream where
  /-- The characters not yet extracted. -/
  rest : List Char
  /-- `eofbit`. -/
  eof : Bool
  /-- `failbit`. -/
  fail : Bool
  deriving DecidableEq, Repr

namespace Ifstream

/-- The stream of a file just opened. -/
def opened (content : String) : Ifstream := ⟨content.data, false, false⟩

/-- `file.good()`. -/
def good (file : Ifstream) : Bool := !file.eof && !file.fail

/-- What the read loop can still consume: the characters left, and one more call while good. -/
def remaining (file : Ifstream) : Nat := file.rest.length + if file.good then 1 else 0

end Ifstream

/-- The extraction loop of `getline`: the characters before the first LF, and what follows that
LF (`none` when the input ends first). -/
def extractLine : List Char → List Char × Option (List Char)
  | [] => ([], none)
  | c :: rest => if c = '\n' then ([], some rest) else (extractLine rest).map (c :: ·) id

/-- `getline( file, host )` on a good stream: `failbit` is set when end of file comes before
any character was extracted. -/
def getline (file : Ifstream) : String × Ifstream :=
  match extractLine file.rest with
  | (line, some after) => (⟨line⟩, { file with rest := after })
  | (line, none) => (⟨line⟩, { rest := [], eof := true, fail := file.fail || line.isEmpty })

theorem extractLine_after_lt (rest : List Char) :
    ∀ after ∈ (extractLine rest).2, after.length < rest.length := by
  induction rest with
  | nil => simp [extractLine]
  | cons c rest ih =>
    by_cases hc : c = '\n'
    · simp [extractLine, hc]
    · simpa [extractLine, hc] using fun after h => Nat.lt_succ_of_lt (ih after h)

theorem remaining_getline_lt {file : Ifstream} (hgood : file.good) :
    (getline file).2.remaining < file.remaining := by
  unfold getline
  split
  · next _ after h =>
    have := extractLine_after_lt file.rest after (by simp [h])
    simp only [Ifstream.remaining, Ifstream.good] at hgood ⊢
    simp only [hgood]
    omega
  · simp only [Ifstream.remaining, hgood]
    simp [Ifstream.good]

/-- `isdigit( host[0] )`, where `host[0]` of an empty host is its terminating `'\0'`. -/
def startsWithDigit (host : String) : Bool := (host.data.headD '\x00').isDigit

/-- A line `ReadHosts` logs with `PS_LOG`. -/
inductive HostsLog
  /-- The file did not open. -/
  | couldNotOpen (filePath : String)
  /-- A line beginning with a digit that `from_string` rejected. -/
  | invalidHostIp (host : String)
  /-- The count after the loop. -/
  | hostsRead (numHosts : BitVec 32)
  deriving DecidableEq, Repr

/-- The text `PS_LOG` writes for a line. -/
def HostsLog.text : HostsLog → String
  | .couldNotOpen filePath => "ReadHosts: couldn\x27t open " ++ filePath
  | .invalidHostIp host => "invalid host ip: " ++ host
  | .hostsRead numHosts => toString numHosts.toInt ++ " hosts are readed"

/-- The `while( file.good() )` loop of `ReadHosts`, with the host list, the `int` count
`numHosts` and the log it extends. -/
def readLoop (isIp : String → Bool) (file : Ifstream) (hosts : List String)
    (numHosts : BitVec 32) (log : List HostsLog) : List String × BitVec 32 × List HostsLog :=
  if hgood : file.good then
    let host := (getline file).1
    if startsWithDigit host && !isIp host then
      readLoop isIp (getline file).2 hosts numHosts (log ++ [.invalidHostIp host])
    else readLoop isIp (getline file).2 (hosts ++ [host]) (numHosts + 1) log
  else (hosts, numHosts, log)
termination_by file.remaining
decreasing_by all_goals exact remaining_getline_lt hgood

/-- What `ReadHosts` leaves behind. -/
structure ReadHostsResult where
  /-- Its return value. -/
  ok : Bool
  /-- The host list after the call. -/
  hosts : List String
  /-- What it logged, in order. -/
  log : List HostsLog
  deriving DecidableEq, Repr

/-- `ReadHosts( filePath, hosts )`, where `files` gives the content of every file that opens. -/
def readHosts (isIp : String → Bool) (files : String → Option String) (filePath : String)
    (hosts : List String) : ReadHostsResult :=
  match files filePath with
  | none => ⟨false, hosts, [.couldNotOpen filePath]⟩
  | some content =>
    let (hosts, numHosts, log) := readLoop isIp (.opened content) hosts 0 []
    ⟨true, hosts, log ++ [.hostsRead numHosts]⟩

/-! ## What the loop reads -/

/-- Whether the loop keeps a host: it does not begin with a digit, or it is an address. -/
def keepsHost (isIp : String → Bool) (host : String) : Bool := !startsWithDigit host || isIp host

@[simp] theorem startsWithDigit_and_not_isIp (isIp : String → Bool) (host : String) :
    (startsWithDigit host && !isIp host) = !keepsHost isIp host := by
  simp [keepsHost]

/-- The lines `getline` reads from a file: its pieces between LFs. -/
def getlineLines (content : String) : List String := (content.data.splitOn '\n').map String.mk

/-- The lines the loop has still to read from a stream. -/
def pendingLines (file : Ifstream) : List String :=
  if file.good then getlineLines ⟨file.rest⟩ else []

theorem splitOn_extractLine (rest : List Char) :
    rest.splitOn '\n' =
      (extractLine rest).1 :: ((extractLine rest).2.map (·.splitOn '\n')).getD [] := by
  induction rest with
  | nil => rfl
  | cons c rest ih =>
    by_cases hc : c = '\n'
    · simp [List.splitOn, extractLine, hc]
    · simp only [List.splitOn] at ih
      simp [List.splitOn, extractLine, hc, ih]

/-- One call of `getline` on a good stream reads the first pending line. -/
theorem pendingLines_getline {file : Ifstream} (hgood : file.good) :
    pendingLines file = (getline file).1 :: pendingLines (getline file).2 := by
  have hsplit := splitOn_extractLine file.rest
  unfold getline
  split <;> simp_all [pendingLines, getlineLines, Ifstream.good]

/-- The loop appends the pending lines it keeps, counts them, and logs the others. -/
theorem readLoop_eq (isIp : String → Bool) (file : Ifstream) (hosts : List String)
    (numHosts : BitVec 32) (log : List HostsLog) :
    readLoop isIp file hosts numHosts log =
      (hosts ++ (pendingLines file).filter (keepsHost isIp),
        numHosts + BitVec.ofNat 32 ((pendingLines file).filter (keepsHost isIp)).length,
        log ++ ((pendingLines file).filter (!keepsHost isIp ·)).map .invalidHostIp) := by
  induction file, hosts, numHosts, log using readLoop.induct isIp with
  | case1 file hosts numHosts log hgood host hskip ih =>
    rw [readLoop, dif_pos hgood, if_pos hskip, ih, pendingLines_getline hgood]
    simp only [startsWithDigit_and_not_isIp, Bool.not_eq_true'] at hskip
    simp [List.filter_cons, hskip]
  | case2 file hosts numHosts log hgood host hkeep ih =>
    rw [readLoop, dif_pos hgood, if_neg hkeep, ih, pendingLines_getline hgood]
    simp only [startsWithDigit_and_not_isIp, Bool.not_eq_true', Bool.not_eq_false] at hkeep
    simp [List.filter_cons, hkeep, BitVec.ofNat_add, BitVec.add_assoc, BitVec.add_comm 1#32]
  | case3 file hosts numHosts log hgood =>
    simp [readLoop, hgood, pendingLines]

theorem readHosts_of_open (isIp : String → Bool) {files : String → Option String}
    {filePath content : String} (hosts : List String) (hopen : files filePath = some content) :
    readHosts isIp files filePath hosts =
      ⟨true, hosts ++ (getlineLines content).filter (keepsHost isIp),
        ((getlineLines content).filter (!keepsHost isIp ·)).map .invalidHostIp ++
          [.hostsRead (BitVec.ofNat 32 ((getlineLines content).filter (keepsHost isIp)).length)]⟩ := by
  simp [readHosts, hopen, readLoop_eq, pendingLines, Ifstream.opened, Ifstream.good]

/-! ## The host list as documented -/

/-- A blank line: nothing but white space, or nothing at all. -/
def isBlank (line : String) : Bool := line.data.all Char.isWhitespace

/-- The lines of a file as the documentation counts them: the file split at LF, with no empty
line after a final LF. -/
def fileLines (content : String) : List String :=
  if content.data.getLast? = some '\n' then (content.split (· == '\n')).dropLast
  else content.split (· == '\n')

/-- The hosts `ReadHosts` is documented to append: the lines that are not blank and either do not
begin with a digit or are addresses. -/
def documentedHosts (isIp : String → Bool) (content : String) : List String :=
  (fileLines content).filter fun line => !isBlank line && keepsHost isIp line

theorem splitOn_append_lf (line : List Char) :
    (line ++ ['\n']).splitOn '\n' = line.splitOn '\n' ++ [[]] := by
  induction line with
  | nil => rfl
  | cons c line ih =>
    simp only [List.splitOn] at ih ⊢
    obtain ⟨first, others, hsplit⟩ :=
      List.exists_cons_of_ne_nil (List.splitOnP_ne_nil (· == '\n') line)
    by_cases hc : c = '\n' <;> simp [hc, ih, hsplit]

theorem isDigit_of_isWhitespace {c : Char} (hc : c.isWhitespace) : c.isDigit = false := by
  simp only [Char.isWhitespace, Bool.or_eq_true, decide_eq_true_eq] at hc
  rcases hc with ((rfl | rfl) | rfl) | rfl <;> rfl

/-- A blank line never begins with a digit, so the loop keeps it. -/
theorem keepsHost_of_isBlank (isIp : String → Bool) {line : String} (hblank : isBlank line) :
    keepsHost isIp line := by
  obtain ⟨_ | ⟨c, rest⟩⟩ := line
  · rfl
  · have hc : c.isWhitespace := by simp_all [isBlank]
    simp [keepsHost, startsWithDigit, isDigit_of_isWhitespace hc]

theorem fileLines_sublist (content : String) :
    List.Sublist (fileLines content) (getlineLines content) := by
  unfold fileLines
  rw [String.split_of_valid]
  split
  · exact List.dropLast_sublist _
  · exact List.Sublist.refl _

/-- Without blank pieces the file does not end in an LF, and the documentation counts every
piece. -/
theorem fileLines_of_not_blank {content : String}
    (hlines : ∀ line ∈ getlineLines content, isBlank line = false) :
    fileLines content = getlineLines content := by
  have hnotlf : content.data.getLast? ≠ some '\n' := by
    intro hlf
    obtain ⟨init, hinit⟩ := List.getLast?_eq_some_iff.mp hlf
    have hempty := hlines "" (by simp [getlineLines, hinit, splitOn_append_lf])
    exact absurd hempty (by decide)
  rw [fileLines, if_neg hnotlf, String.split_of_valid]
  rfl

/-- The loop keeps the documented hosts exactly when no line `getline` reads is blank: a blank
line is kept by the loop and dropped by the documentation. -/
theorem filter_keepsHost_eq_documentedHosts_iff (isIp : String → Bool) (content : String) :
    (getlineLines content).filter (keepsHost isIp) = documentedHosts isIp content ↔
      ∀ line ∈ getlineLines content, isBlank line = false := by
  constructor
  · intro heq line hline
    by_contra hblank
    have hdocumented : List.Sublist (documentedHosts isIp content)
        (((getlineLines content).filter (keepsHost isIp)).filter (!isBlank ·)) := by
      rw [List.filter_filter]
      exact (fileLines_sublist content).filter _
    have hshorter : (((getlineLines content).filter (keepsHost isIp)).filter (!isBlank ·)).length <
        ((getlineLines content).filter (keepsHost isIp)).length :=
      List.length_filter_lt_length_iff_exists.mpr
        ⟨line, List.mem_filter.mpr ⟨hline, keepsHost_of_isBlank isIp (by simpa using hblank)⟩,
          by simpa using hblank⟩
    have := hdocumented.length_le
    rw [← heq] at this
    omega
  · intro hlines
    rw [documentedHosts, fileLines_of_not_blank hlines]
    exact List.filter_congr fun line hline => by simp [hlines line hline]

/-- For every file that opens, `ReadHosts` returns true, appends the lines `getline` reads that
it keeps, logs the others and then their count; this is the documented list of hosts exactly
when no line it reads is blank. -/
theorem readHosts_appends_every_lf_piece (isIp : String → Bool)
    {files : String → Option String} {filePath content : String} (hosts : List String)
    (hopen : files filePath = some content) :
    readHosts isIp files filePath hosts =
        ⟨true, hosts ++ (getlineLines content).filter (keepsHost isIp),
          ((getlineLines content).filter (!keepsHost isIp ·)).map .invalidHostIp ++
            [.hostsRead (BitVec.ofNat 32 ((getlineLines content).filter (keepsHost isIp)).length)]⟩ ∧
      ((readHosts isIp files filePath hosts).hosts = hosts ++ documentedHosts isIp content ↔
        ∀ line ∈ getlineLines content, isBlank line = false) := by
  rw [readHosts_of_open isIp hosts hopen]
  exact ⟨rfl, by simpa using filter_keepsHost_eq_documentedHosts_iff isIp content⟩

/-- A blank line and a final LF: `ReadHosts` appends both empty pieces. -/
theorem readHosts_blank_and_final_lf :
    readHosts (fun _ => false) (fun _ => some "a\n\nb\n") "hosts" [] =
        ⟨true, ["a", "", "b", ""], [.hostsRead 4]⟩ ∧
      documentedHosts (fun _ => false) "a\n\nb\n" = ["a", "b"] :=
  ⟨(readHosts_appends_every_lf_piece (fun _ => false) []
      (rfl : (fun _ => some "a\n\nb\n") "hosts" = some "a\n\nb\n")).1.trans (by decide),
    by rw [documentedHosts, fileLines, String.split_of_valid]; decide⟩

/-! ## A host list written one host per line -/

theorem splitOn_lines (written : List String) (hlf : ∀ host ∈ written, '\n' ∉ host.data) :
    ((written.map fun host => host.data ++ ['\n']).flatten).splitOn '\n' =
      written.map String.data ++ [[]] := by
  induction written with
  | nil => rfl
  | cons host written ih =>
    have hhost : ∀ c ∈ host.data, ¬(c == '\n') = true := fun c hc hlfc =>
      hlf host (List.mem_cons_self _ _) (beq_iff_eq.mp hlfc ▸ hc)
    rw [List.map_cons, List.flatten_cons, List.append_assoc, List.singleton_append]
    simp only [List.splitOn] at ih ⊢
    rw [List.splitOnP_first _ _ hhost _ (beq_self_eq_true _),
      ih fun other hother => hlf other (List.mem_cons_of_mem _ hother)]
    rfl

/-- A host list written one host per line, each line ended by an LF, is read back with one
empty host more, the piece after the last LF. -/
theorem readHosts_written_lines (isIp : String → Bool) {files : String → Option String}
    {filePath : String} (hosts written : List String)
    (hlf : ∀ host ∈ written, '\n' ∉ host.data) (hkept : ∀ host ∈ written, keepsHost isIp host)
    (hopen : files filePath = some ⟨(written.map fun host => host.data ++ ['\n']).flatten⟩) :
    (readHosts isIp files filePath hosts).hosts = hosts ++ written ++ [""] := by
  have hlines : getlineLines ⟨(written.map fun host => host.data ++ ['\n']).flatten⟩ =
      written ++ [""] := by
    simp only [getlineLines, splitOn_lines written hlf, List.map_append, List.map_map]
    simp [Function.comp_def]
  rw [readHosts_of_open isIp hosts hopen, hlines, List.filter_eq_self.mpr, List.append_assoc]
  intro host hhost
  rcases List.mem_append.mp hhost with hwritten | hempty
  · exact hkept host hwritten
  · rw [List.mem_singleton.mp hempty]
    rfl

/-- Two hosts written on two lines come back with an empty third. -/
theorem readHosts_two_written_lines :
    (readHosts (fun _ => false) (fun _ => some "a\nb\n") "hosts" []).hosts = ["a", "b", ""] :=
  readHosts_written_lines (fun _ => false) [] ["a", "b"] (by decide) (by decide) (by decide)

end Master
end Prun
