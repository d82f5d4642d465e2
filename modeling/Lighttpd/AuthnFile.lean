import Lighttpd.Lib.Strtol
import Lighttpd.Alias

/-!
# Password files

`mod_authn_file_htpasswd_get` and `mod_authn_file_htdigest_get` read a file with `fgets` into
an array of 1024 bytes and take what `fgets` gives for a line. A line of 1023 bytes or more
comes in pieces; each piece is then looked at as if it were a line. `userfileLoop` keeps the
pieces beside the result, and `userfileLoop_iff` says for which files they are the lines and
the entry is that of the first line with the key.
-/

namespace Lighttpd

open CString

/-! ## Reading -/

/-- `fgets` with room for so many bytes: what it reads, and the rest of the file. -/
def fgets : ℕ → Bytes → Bytes × Bytes
  | 0, s => ([], s)
  | _ + 1, [] => ([], [])
  | n + 1, c :: s => if c = LF then ([c], s) else (c :: (fgets n s).1, (fgets n s).2)

/-- The bytes of `f_user` before its NUL. -/
def fUserSize : ℕ := 1023

/-- The loop over a password file, with a function for the entry in what was read: the pieces
looked at, and the entry that ends the loop. -/
def userfileLoop {α : Type*} (entry : Bytes → Option α) : ℕ → Bytes → List Bytes × Option α
  | 0, _ => ([], none)
  | n + 1, file =>
    if file = [] then ([], none)
    else
      let r := fgets fUserSize file
      match entry r.1 with
      | some a => ([r.1], some a)
      | none =>
        let t := userfileLoop entry n r.2
        (r.1 :: t.1, t.2)

/-- Skips blank lines and comment lines. -/
def skipsLine (fUser : Bytes) : Bool :=
  fUser.headD 0 = 35 || fUser.headD 0 = LF || fUser.headD 0 = 0

/-- The last field of a line without its newline, and whether the byte in front of it is
read. -/
def passwordField (fPwd : Bytes) : Bytes × Bool :=
  let pwd := cstr fPwd
  (if pwd.getLast? = some LF then pwd.dropLast else pwd, pwd.isEmpty)

/-- The entry that `mod_authn_file_htpasswd_get` finds in a line. -/
def htpasswdEntry (username fUser : Bytes) : Option (Bytes × Bool) :=
  if skipsLine fUser then none
  else
    match strchr fUser 58 with
    | none => none
    | some uLen =>
      if username.length = uLen ∧ strncmpEq false username fUser uLen then
        some (passwordField (fUser.drop (uLen + 1)))
      else none

/-- The entry that `mod_authn_file_htdigest_get` finds in a line. -/
def htdigestEntry (username realm fUser : Bytes) : Option (Bytes × Bool) :=
  if skipsLine fUser then none
  else
    match strchr fUser 58 with
    | none => none
    | some uLen =>
      let fRealm := fUser.drop (uLen + 1)
      match strchr fRealm 58 with
      | none => none
      | some rLen =>
        if username.length = uLen ∧ realm.length = rLen ∧ strncmpEq false username fUser uLen ∧
            strncmpEq false realm fRealm rLen then
          some (passwordField (fRealm.drop (rLen + 1)))
        else none

/-- A digit in `http_auth_md5_hex2bin`. -/
def md5HexDigit (c : UInt8) : Option UInt8 :=
  if 48 ≤ c ∧ c ≤ 57 then some (c - 48)
  else if 97 ≤ c ||| 0x20 ∧ c ||| 0x20 ≤ 102 then some ((c ||| 0x20) - 97 + 10)
  else none

/-- The loop of `http_auth_md5_hex2bin`. -/
def md5HexLoop : Bytes → Option Bytes
  | hi :: lo :: s => do
    let hi ← md5HexDigit hi
    let lo ← md5HexDigit lo
    let t ← md5HexLoop s
    pure ((hi <<< 4 ||| lo) :: t)
  | _ => some []

/-- `http_auth_md5_hex2bin`. -/
def httpAuthMd5Hex2bin (md5hex : Bytes) : Option Bytes :=
  if md5hex.length ≠ 32 then none else md5HexLoop md5hex

/-- What a function that reads a password file returns, the pieces it looked at, and whether
it read the byte in front of a field. -/
structure UserfileRead where
  result : Option Bytes
  pieces : List Bytes
  readsBefore : Bool
  deriving DecidableEq, Repr

/-- A read of a file that is not opened. -/
def UserfileRead.failed : UserfileRead := ⟨none, [], false⟩

/-- The loop over an open file. -/
def readUserfile (entry : Bytes → Option (Bytes × Bool)) (result : Bytes → Option Bytes)
    (file : Bytes) : UserfileRead :=
  let r := userfileLoop entry file.length file
  ⟨r.2.bind fun e => result e.1, r.1, (r.2.map Prod.snd).getD false⟩

/-- `mod_authn_file_htpasswd_get`; `fs` is the content of the files that can be opened. -/
def modAuthnFileHtpasswdGet (fs : Bytes → Option Bytes) (authFn username : Buffer) :
    UserfileRead :=
  match username with
  | none => .failed
  | some username =>
    if bufferStringIsEmpty authFn then .failed
    else
      match fs authFn.string with
      | none => .failed
      | some file => readUserfile (htpasswdEntry username) some file

/-- `mod_authn_file_htdigest_get`. -/
def modAuthnFileHtdigestGet (fs : Bytes → Option Bytes) (authFn username realm : Buffer) :
    UserfileRead :=
  if bufferStringIsEmpty authFn then .failed
  else
    match username, realm with
    | some username, some realm =>
      match fs authFn.string with
      | none => .failed
      | some file => readUserfile (htdigestEntry username realm) httpAuthMd5Hex2bin file
    | _, _ => .failed

/-! ## Lines -/

/-- The first line of a file, with its newline. -/
def firstLine : Bytes → Bytes
  | [] => []
  | c :: s => if c = LF then [c] else c :: firstLine s

/-- The lines of a file, with their newlines. -/
def fileLines : Bytes → List Bytes
  | [] => []
  | c :: s =>
    if c = LF then [c] :: fileLines s
    else
      match fileLines s with
      | [] => [[c]]
      | l :: ls => (c :: l) :: ls

/-- A text without the newline at its end. -/
def stripNewline (s : Bytes) : Bytes := if s.getLast? = some LF then s.dropLast else s

/-- A line of the form `key:rest`. -/
def keyLine (key l : Bytes) : Bool := (key ++ [58]).isPrefixOf l

/-- The rest of a line of the form `key:rest`. -/
def keyRest (key l : Bytes) : Bytes := l.drop (key.length + 1)

theorem fgets_eq : ∀ (n : ℕ) (s : Bytes),
    fgets n s = ((firstLine s).take n, s.drop (min n (firstLine s).length))
  | 0, s => by simp [fgets]
  | n + 1, [] => by simp [fgets, firstLine]
  | n + 1, c :: s => by
    rw [fgets, firstLine]
    split_ifs with hc
    · simp
    · rw [fgets_eq n s]
      simp

theorem fileLines_eq : ∀ {s : Bytes}, s ≠ [] →
    fileLines s = firstLine s :: fileLines (s.drop (firstLine s).length)
  | c :: s, _ => by
    rw [fileLines, firstLine]
    split_ifs with hc
    · rfl
    · rcases hs : s with _ | ⟨d, t⟩
      · rfl
      · rw [fileLines_eq (List.cons_ne_nil d t)]
        rfl

theorem firstLine_ne_nil : ∀ {s : Bytes}, s ≠ [] → firstLine s ≠ []
  | c :: s, _ => by
    rw [firstLine]
    split_ifs <;> exact List.cons_ne_nil _ _

theorem fgets_of_le {s : Bytes} (h : (firstLine s).length ≤ fUserSize) :
    fgets fUserSize s = (firstLine s, s.drop (firstLine s).length) := by
  rw [fgets_eq, List.take_of_length_le h, Nat.min_eq_right h]

section Entries

variable {key : Bytes}

/-- A function that finds the entry of a key in a line. -/
def FindsKey (key : Bytes) (entry : Bytes → Option (Bytes × Bool)) : Prop :=
  ∀ p, entry p =
    if skipsLine p = false ∧ key ++ [58] <+: cstr p then
      some (stripNewline (cstr (keyRest key p)), (cstr (keyRest key p)).isEmpty)
    else none

variable {u file : Bytes} {entry : Bytes → Option (Bytes × Bool)}

theorem strncmpEq_iff {a v : Bytes} (h0 : (0 : UInt8) ∉ u) (ha : a.length = u.length) :
    strncmpEq false a (u ++ v) u.length = true ↔ a = u := by
  have hu : (cstr (u ++ v)).take u.length = u := by
    rw [cstr_append_of_notMem h0, List.take_left]
  rw [strncmpEq, if_neg Bool.false_ne_true, decide_eq_true_eq, hu]
  constructor
  · intro h
    by_cases hnul : (0 : UInt8) ∈ a
    · have hlen : (cstr a).length < a.length := by
        refine lt_of_le_of_ne (cstr_isPrefix a).length_le fun heq => ?_
        have hno := notMem_cstr a
        rw [(cstr_isPrefix a).eq_of_length heq] at hno
        exact hno hnul
      have := congrArg List.length h
      rw [List.length_take] at this
      omega
    · rwa [cstr_of_notMem hnul, ← ha, List.take_length] at h
  · rintro rfl
    rw [cstr_of_notMem h0, List.take_length]

theorem prefix_colon_iff {a v : Bytes} (ha : 58 ∉ a) (hu : 58 ∉ u) :
    a ++ [58] <+: u ++ 58 :: v ↔ a = u := by
  constructor
  · rintro ⟨t, ht⟩
    exact (append_cons_inj ha hu (by simpa using ht)).1
  · rintro rfl
    exact ⟨v, by simp⟩

theorem cstr_append_colon (h0 : (0 : UInt8) ∉ u) (v : Bytes) :
    cstr (u ++ 58 :: v) = u ++ 58 :: cstr v := by
  rw [cstr_append_of_notMem h0]
  simp [cstr]

theorem keyRest_append (key v : Bytes) : keyRest key (key ++ 58 :: v) = v := by
  simp [keyRest]

theorem passwordField_eq (p : Bytes) :
    passwordField p = (stripNewline (cstr p), (cstr p).isEmpty) := rfl

theorem findsKey_htpasswdEntry {username : Bytes} (h58 : 58 ∉ username) :
    FindsKey username (htpasswdEntry username) := by
  intro p
  rw [htpasswdEntry]
  cases hskip : skipsLine p with
  | true => simp
  | false =>
    simp only [Bool.false_eq_true, if_false, true_and]
    cases hchr : strchr p 58 with
    | none =>
      have hno : ¬ username ++ [58] <+: cstr p := fun hpre => by
        have hmem : (58 : UInt8) ∈ username ++ [58] := by simp
        exact absurd (strchr_eq_none_iff.mp hchr) (not_not.mpr (hpre.subset hmem))
      rw [if_neg hno]
    | some uLen =>
      obtain ⟨u, v, rfl, rfl, hu, h0⟩ := strchr_eq_some hchr
      have hpre : username ++ [58] <+: cstr (u ++ 58 :: v) ↔ username = u := by
        rw [cstr_append_colon h0, prefix_colon_iff h58 hu]
      simp only [hpre]
      by_cases hlen : username.length = u.length
      · simp only [hlen, true_and, strncmpEq_iff h0 hlen]
        by_cases heq : username = u
        · simp only [heq, if_true, passwordField_eq, keyRest]
        · simp [heq]
      · have hne : username ≠ u := fun h => hlen (congrArg List.length h)
        simp [hlen, hne]

theorem findsKey_htdigestEntry {username realm : Bytes} (hu58 : 58 ∉ username)
    (hr58 : 58 ∉ realm) :
    FindsKey (username ++ 58 :: realm) (htdigestEntry username realm) := by
  intro p
  rw [htdigestEntry]
  cases hskip : skipsLine p with
  | true => simp
  | false =>
    simp only [Bool.false_eq_true, if_false, true_and]
    cases hchr : strchr p 58 with
    | none =>
      have hno : ¬ username ++ 58 :: realm ++ [58] <+: cstr p := fun hpre => by
        have hmem : (58 : UInt8) ∈ username ++ 58 :: realm ++ [58] := by simp
        exact absurd (strchr_eq_none_iff.mp hchr) (not_not.mpr (hpre.subset hmem))
      simp only [if_neg hno]
    | some uLen =>
      obtain ⟨u, w, rfl, rfl, hu, h0⟩ := strchr_eq_some hchr
      have hpre : username ++ 58 :: realm ++ [58] <+: cstr (u ++ 58 :: w) ↔
          username = u ∧ realm ++ [58] <+: cstr w := by
        rw [cstr_append_colon h0]
        constructor
        · rintro ⟨t, ht⟩
          obtain ⟨rfl, h⟩ := append_cons_inj hu58 hu (by simpa using ht)
          exact ⟨rfl, t, by simpa using h⟩
        · rintro ⟨rfl, t, ht⟩
          exact ⟨t, by simp [← ht]⟩
      have hdrop : (u ++ 58 :: w).drop (u.length + 1) = w := by simp
      simp only [hpre, hdrop]
      cases hchr' : strchr w 58 with
      | none =>
        have hno : ¬ realm ++ [58] <+: cstr w := fun hpre => by
          have hmem : (58 : UInt8) ∈ realm ++ [58] := by simp
          exact absurd (strchr_eq_none_iff.mp hchr') (not_not.mpr (hpre.subset hmem))
        simp [hno]
      | some rLen =>
        obtain ⟨r, v, rfl, rfl, hr, h0'⟩ := strchr_eq_some hchr'
        have hpre' : realm ++ [58] <+: cstr (r ++ 58 :: v) ↔ realm = r := by
          rw [cstr_append_colon h0', prefix_colon_iff hr58 hr]
        simp only [hpre']
        by_cases hlen : username.length = u.length ∧ realm.length = r.length
        · simp only [hlen, true_and, strncmpEq_iff h0 hlen.1, strncmpEq_iff h0' hlen.2]
          by_cases heq : username = u ∧ realm = r
          · obtain ⟨rfl, rfl⟩ := heq
            have hrest : (realm ++ 58 :: v).drop (realm.length + 1) = v := keyRest_append realm v
            have hkey : keyRest (username ++ 58 :: realm)
                (username ++ 58 :: (realm ++ 58 :: v)) = v := by
              have := keyRest_append (username ++ 58 :: realm) v
              rwa [List.append_assoc] at this
            simp only [and_self, if_true, passwordField_eq, hrest, hkey]
          · simp only [heq, if_false]
        · have hne : ¬ (username = u ∧ realm = r) := fun h =>
            hlen ⟨congrArg List.length h.1, congrArg List.length h.2⟩
          have hno : ¬ (username.length = u.length ∧ realm.length = r.length ∧
              strncmpEq false username (u ++ 58 :: (r ++ 58 :: v)) u.length = true ∧
              strncmpEq false realm (r ++ 58 :: v) r.length = true) := fun h =>
            hlen ⟨h.1, h.2.1⟩
          simp only [if_neg hno, if_neg hne]

/-! ## Files -/

/-- A key that no comment line starts with. -/
def UsableKey (key : Bytes) : Prop := (0 : UInt8) ∉ key ∧ key.head? ≠ some 35

instance : DecidablePred UsableKey := fun _ => inferInstanceAs (Decidable (_ ∧ _))

/-- The first line with the key is what a reader of the file's lines finds. -/
def ReadsLines (key : Bytes) (result : Bytes → Option Bytes) (file : Bytes) (r : UserfileRead) :
    Prop :=
  r.pieces <+: fileLines file ∧
    r.result = ((fileLines file).find? (keyLine key)).bind
      (fun l => result (stripNewline (keyRest key l))) ∧
    r.readsBefore = false

/-- The lines up to the first one with the key fit into the array. -/
def LinesFit (key : Bytes) (file : Bytes) : Prop :=
  ∀ pre l post, fileLines file = pre ++ l :: post →
    (UsableKey key → ∀ m ∈ pre, keyLine key m = false) → l.length ≤ fUserSize

/-- The rest of the first line with the key is not empty and reads the same up to its first
NUL; with a key that is not looked for it gives nothing. -/
def EntryFits (key : Bytes) (result : Bytes → Option Bytes) (file : Bytes) : Prop :=
  ∀ l, (fileLines file).find? (keyLine key) = some l →
    if UsableKey key then
      cstr (keyRest key l) ≠ [] ∧
        result (stripNewline (cstr (keyRest key l))) = result (stripNewline (keyRest key l))
    else result (stripNewline (keyRest key l)) = none

theorem notFound_of_not_usable (hentry : FindsKey key entry) (h : ¬ UsableKey key) (p : Bytes) :
    entry p = none := by
  rw [hentry, if_neg]
  rintro ⟨hskip, hpre⟩
  refine h ⟨fun h0 => notMem_cstr p (hpre.subset (List.mem_append_left _ h0)), fun hhead => ?_⟩
  obtain ⟨t, rfl⟩ := List.head?_eq_some_iff.mp hhead
  obtain ⟨u, hu⟩ := hpre.trans (cstr_isPrefix p)
  rw [← hu] at hskip
  simp [skipsLine] at hskip

/-- With a usable key the entry is found in the lines of the form `key:rest`. -/
theorem entry_eq (hentry : FindsKey key entry) (h : UsableKey key) (hkey : LF ∉ key) (l : Bytes) :
    entry l = if keyLine key l then
      some (stripNewline (cstr (keyRest key l)), (cstr (keyRest key l)).isEmpty) else none := by
  rw [hentry]
  have hiff : (skipsLine l = false ∧ key ++ [58] <+: cstr l) ↔ keyLine key l = true := by
    rw [keyLine, List.isPrefixOf_iff_prefix]
    constructor
    · exact fun h => h.2.trans (cstr_isPrefix l)
    · rintro ⟨t, rfl⟩
      refine ⟨?_, ?_⟩
      · rcases key with _ | ⟨c, key⟩
        · rfl
        · have h35 : c ≠ 35 := fun hc => h.2 (by rw [hc]; rfl)
          have hlf : c ≠ LF := fun hc => hkey (hc ▸ List.mem_cons_self)
          have h0 : c ≠ 0 := fun hc => h.1 (hc ▸ List.mem_cons_self)
          simp [skipsLine, h35, hlf, h0]
      · rw [List.append_assoc, List.singleton_append, cstr_append_colon h.1]
        exact ⟨cstr t, by simp⟩
  simp only [hiff]

theorem length_fgets_lt (h : file ≠ []) : (fgets fUserSize file).2.length < file.length := by
  have hline : 0 < (firstLine file).length := List.length_pos_iff.mpr (firstLine_ne_nil h)
  have hfile : 0 < file.length := List.length_pos_iff.mpr h
  have hsize : 0 < fUserSize := by decide
  rw [fgets_eq, List.length_drop]
  omega

/-- A first line that does not fit is not looked at as it is. -/
theorem not_prefix_of_long (h : file ≠ []) (hlong : fUserSize < (firstLine file).length)
    (ps : List Bytes) : ¬ (fgets fUserSize file).1 :: ps <+: fileLines file := by
  rw [fileLines_eq h, fgets_eq, List.cons_prefix_cons]
  rintro ⟨hline, -⟩
  have := congrArg List.length hline
  rw [List.length_take] at this
  omega

theorem userfileLoop_cons {α : Type*} (entry : Bytes → Option α) (h : file ≠ []) (n : ℕ) :
    userfileLoop entry (n + 1) file =
      match entry (fgets fUserSize file).1 with
      | some a => ([(fgets fUserSize file).1], some a)
      | none =>
        ((fgets fUserSize file).1 :: (userfileLoop entry n (fgets fUserSize file).2).1,
          (userfileLoop entry n (fgets fUserSize file).2).2) := by
  rw [userfileLoop, if_neg h]

theorem userfileLoop_of_none {α : Type*} {entry : Bytes → Option α} (hentry : ∀ p, entry p = none) :
    ∀ (n : ℕ) {file : Bytes}, file.length ≤ n →
      (userfileLoop entry n file).2 = none ∧
        ((userfileLoop entry n file).1 <+: fileLines file ↔
          ∀ l ∈ fileLines file, l.length ≤ fUserSize)
  | 0, file, hn => by
    obtain rfl := List.length_eq_zero_iff.mp (Nat.le_zero.mp hn)
    simp [userfileLoop, fileLines]
  | n + 1, file, hn => by
    by_cases hfile : file = []
    · simp [hfile, userfileLoop, fileLines]
    · obtain ⟨ihnone, ihfit⟩ := userfileLoop_of_none hentry n
        (Nat.le_of_lt_succ ((length_fgets_lt hfile).trans_le hn))
      rw [userfileLoop_cons entry hfile, hentry]
      refine ⟨ihnone, ?_⟩
      by_cases hlong : fUserSize < (firstLine file).length
      · refine iff_of_false (not_prefix_of_long hfile hlong _) fun h => ?_
        have := h (firstLine file) (by rw [fileLines_eq hfile]; exact List.mem_cons_self)
        omega
      · have hle := not_lt.mp hlong
        rw [fgets_of_le hle] at ihfit ⊢
        rw [fileLines_eq hfile, List.cons_prefix_cons, List.forall_mem_cons]
        simp only [ihfit, true_and, hle]

theorem linesFit_cons (hfile : file ≠ []) (hkey : UsableKey key) :
    LinesFit key file ↔ (firstLine file).length ≤ fUserSize ∧
      (keyLine key (firstLine file) = false →
        LinesFit key (file.drop (firstLine file).length)) := by
  rw [LinesFit, LinesFit, fileLines_eq hfile]
  constructor
  · intro h
    refine ⟨h [] _ _ rfl fun _ => by simp, fun hfirst pre l post heq hpre => ?_⟩
    refine h (firstLine file :: pre) l post (by rw [heq]; rfl) fun hk m hm => ?_
    rcases List.mem_cons.mp hm with rfl | hm
    · exact hfirst
    · exact hpre hk m hm
  · rintro ⟨hfirst, hrest⟩ pre l post heq hpre
    rcases List.cons_eq_append_iff.mp heq with ⟨rfl, hl⟩ | ⟨pre', rfl, hls⟩
    · rw [(List.cons.inj hl).1]
      exact hfirst
    · exact hrest (hpre hkey _ List.mem_cons_self) pre' l post hls
        fun hk m hm => hpre hk m (List.mem_cons_of_mem _ hm)

/-- With a usable key the loop goes on to the first line with the key. -/
theorem userfileLoop_iff_of_usable (hentry : FindsKey key entry) (hkey : UsableKey key)
    (hlf : LF ∉ key) (result : Bytes → Option Bytes) :
    ∀ (n : ℕ) {file : Bytes}, file.length ≤ n →
      (ReadsLines key result file
          ⟨(userfileLoop entry n file).2.bind fun e => result e.1, (userfileLoop entry n file).1,
            ((userfileLoop entry n file).2.map Prod.snd).getD false⟩ ↔
        LinesFit key file ∧ EntryFits key result file)
  | 0, file, hn => by
    obtain rfl := List.length_eq_zero_iff.mp (Nat.le_zero.mp hn)
    simp [userfileLoop, fileLines, ReadsLines, LinesFit, EntryFits]
  | n + 1, file, hn => by
    by_cases hfile : file = []
    · simp [hfile, userfileLoop, fileLines, ReadsLines, LinesFit, EntryFits]
    · have ih := userfileLoop_iff_of_usable hentry hkey hlf result n
        (Nat.le_of_lt_succ ((length_fgets_lt hfile).trans_le hn))
      rw [userfileLoop_cons entry hfile, linesFit_cons hfile hkey]
      by_cases hlong : fUserSize < (firstLine file).length
      · refine iff_of_false (fun h => ?_) fun h => ?_
        · rcases hfound : entry (fgets fUserSize file).1 with _ | a
          · rw [hfound] at h
            exact not_prefix_of_long hfile hlong _ h.1
          · rw [hfound] at h
            exact not_prefix_of_long hfile hlong _ h.1
        · have := h.1.1
          omega
      · have hle := not_lt.mp hlong
        rw [fgets_of_le hle] at ih ⊢
        rw [entry_eq hentry hkey hlf]
        have hlines := fileLines_eq hfile
        cases hfirst : keyLine key (firstLine file) with
        | true =>
          have hfind : (fileLines file).find? (keyLine key) = some (firstLine file) := by
            rw [hlines, List.find?_cons_of_pos hfirst]
          simp only [ReadsLines, EntryFits, hfind, if_true, Option.bind_some, Option.map_some,
            Option.getD_some, hle, true_and, Bool.true_eq_false, false_imp_iff, Option.some_inj,
            forall_eq']
          rw [if_pos hkey, hlines, List.cons_prefix_cons]
          simp only [true_and, List.nil_prefix, List.isEmpty_eq_false_iff]
          exact and_comm
        | false =>
          have hfind : (fileLines file).find? (keyLine key) =
              (fileLines (file.drop (firstLine file).length)).find? (keyLine key) := by
            rw [hlines, List.find?_cons_of_neg (by simp [hfirst])]
          simp only [ReadsLines, EntryFits, hfind, Bool.false_eq_true, if_false, hle, true_and,
            true_imp_iff] at ih ⊢
          rw [hlines, List.cons_prefix_cons]
          simpa only [true_and] using ih

/-- Reading a password file for a key finds the first line with the key, looks at lines only
and reads nothing in front of a field exactly when the lines fit into the array and the rest
of that line holds no NUL that matters. -/
theorem readUserfile_iff (hentry : FindsKey key entry) (hlf : LF ∉ key)
    (result : Bytes → Option Bytes) (file : Bytes) :
    ReadsLines key result file (readUserfile entry result file) ↔
      LinesFit key file ∧ EntryFits key result file := by
  by_cases hkey : UsableKey key
  · exact userfileLoop_iff_of_usable hentry hkey hlf result file.length le_rfl
  · obtain ⟨hnone, hfit⟩ :=
      userfileLoop_of_none (notFound_of_not_usable hentry hkey) file.length (le_refl file.length)
    have hlines : LinesFit key file ↔ ∀ l ∈ fileLines file, l.length ≤ fUserSize := by
      constructor
      · intro h l hl
        obtain ⟨pre, post, heq⟩ := List.append_of_mem hl
        exact h pre l post heq fun hk => absurd hk hkey
      · intro h pre l post heq _
        exact h l (by rw [heq]; simp)
    rw [ReadsLines, readUserfile, hlines, ← hfit]
    simp only [hnone, Option.bind_none, Option.map_none, Option.getD_none, and_true, EntryFits,
      if_neg hkey]
    refine and_congr_right fun _ => ?_
    rcases (fileLines file).find? (keyLine key) with _ | l
    · simp
    · simp [eq_comm]

end Entries

/-- Both functions use the first line for the user, or for the user and the realm, exactly
when the lines up to that one fit into the array and its last field is not empty and holds no
NUL that matters. -/
theorem modAuthnFile_readsLines_iff {fs : Bytes → Option Bytes} {authFn : Buffer} {file : Bytes}
    {username realm : Bytes} (hname : bufferStringIsEmpty authFn = false)
    (hfile : fs authFn.string = some file) (hu58 : 58 ∉ username) (hulf : LF ∉ username)
    (hr58 : 58 ∉ realm) (hrlf : LF ∉ realm) :
    ReadsLines username some file (modAuthnFileHtpasswdGet fs authFn (some username)) ∧
        ReadsLines (username ++ 58 :: realm) httpAuthMd5Hex2bin file
          (modAuthnFileHtdigestGet fs authFn (some username) (some realm)) ↔
      (LinesFit username file ∧ EntryFits username some file) ∧
        LinesFit (username ++ 58 :: realm) file ∧
          EntryFits (username ++ 58 :: realm) httpAuthMd5Hex2bin file := by
  have hkey : LF ∉ username ++ 58 :: realm := by
    have hcolon : LF ≠ 58 := by decide
    simp [hulf, hrlf, hcolon]
  rw [modAuthnFileHtpasswdGet, modAuthnFileHtdigestGet, hname]
  simp only [Bool.false_eq_true, if_false, hfile]
  rw [readUserfile_iff (findsKey_htpasswdEntry hu58) hulf,
    readUserfile_iff (findsKey_htdigestEntry hu58 hr58) hkey]

/-- A disk with one password file. -/
def oneFile (file : Bytes) : Bytes → Option Bytes := fun _ => some file

theorem modAuthnFile_readsLines_iff_short :
    ReadsLines (str "ann") some (str "ann:pw\n")
          (modAuthnFileHtpasswdGet (oneFile (str "ann:pw\n")) (some (str "/users"))
            (some (str "ann"))) ∧
        ReadsLines (str "ann" ++ 58 :: str "r") httpAuthMd5Hex2bin (str "ann:pw\n")
          (modAuthnFileHtdigestGet (oneFile (str "ann:pw\n")) (some (str "/users"))
            (some (str "ann")) (some (str "r"))) ↔
      (LinesFit (str "ann") (str "ann:pw\n") ∧ EntryFits (str "ann") some (str "ann:pw\n")) ∧
        LinesFit (str "ann" ++ 58 :: str "r") (str "ann:pw\n") ∧
          EntryFits (str "ann" ++ 58 :: str "r") httpAuthMd5Hex2bin (str "ann:pw\n") :=
  modAuthnFile_readsLines_iff (by decide) rfl (by decide) (by decide) (by decide) (by decide)

/-- A line that goes on behind 1023 bytes. -/
def longLine : Bytes := List.replicate 1023 120 ++ str "root:pw\n"

/-- What is behind 1023 bytes of a line is taken for a line: `pw` is the password of `root`. -/
theorem not_readsLines : ¬ ∀ (fs : Bytes → Option Bytes) (authFn : Buffer) (file username : Bytes),
    bufferStringIsEmpty authFn = false → fs authFn.string = some file → 58 ∉ username →
      LF ∉ username →
        ReadsLines username some file (modAuthnFileHtpasswdGet fs authFn (some username)) := by
  intro h
  have hresult := (h (oneFile longLine) (some (str "/users")) longLine (str "root") (by decide) rfl
    (by decide) (by decide)).2.1
  revert hresult
  decide +kernel

end Lighttpd
