import Ysos.Text
import Ysos.UserCalls

/-! # The `cat` command

`cat_file` reads a file in chunks of 512 bytes and prints each of them for itself: a chunk that is not
valid UTF-8 is printed byte by byte.

* `chunkText`: what is printed for a chunk.
* `catLoop_eq`: the loop prints the chunks of the content.
* `cat_prints_iff`: it prints a text exactly when each chunk ends between two characters. -/

namespace Ysos.Sh

open Fat16 Text

/-! ### `cat_file` -/

def CAT_BUFFER_SIZE : ℕ := 512

/-- `is_ascii_graphic`. -/
def isAsciiGraphic (c : Char) : Bool := 0x21 ≤ c.toNat ∧ c.toNat ≤ 0x7E

/-- What is printed for a chunk. -/
def chunkText (bytes : List UInt8) : Str :=
  match fromUtf8 bytes with
  | some s => s
  | none => bytes.map fun byte =>
      let ch := Char.ofNat byte.toNat
      if isAsciiGraphic ch ∨ ch = ' ' ∨ ch = '\n' ∨ ch = '\t' then ch else '.'

/-- What a call leaves behind: the printed text, a panic of the kernel or none, and the resources. -/
structure CatEnd where
  printed : Str
  result : Fs Unit
  resources : ResourceSet File

/-- The loop of `cat_file`, with fuel and the text printed so far.  Errors are printed elsewhere. -/
def catLoop (fd : UInt8) : ℕ → ResourceSet File → List UInt8 → Str → CatEnd
  | 0, s, _, printed => ⟨printed, .error .outOfFuel, s⟩
  | fuel + 1, s, buffer, printed =>
      let o := s.read fd buffer []
      match o.result with
      | .error stop => ⟨printed, .error stop, o.resource⟩
      | .ok bytesRead =>
          if bytesRead < 0 then ⟨printed, .ok (), o.resource⟩
          else if bytesRead = 0 then ⟨printed, .ok (), o.resource⟩
          else
            catLoop fd fuel o.resource o.buf (printed ++ chunkText (o.buf.take bytesRead.toNat))

/-- `cat_file`, with what `sys_open` gets from the file system. -/
def catFile (fuel : ℕ) (opened : Fs (Metadata × File)) (s : ResourceSet File) : CatEnd :=
  match opened with
  | .ok (_, fileHandle) =>
      let (fd, s) := s.open (.file fileHandle)
      let o := catLoop fd fuel s (List.replicate CAT_BUFFER_SIZE 0) []
      { o with resources := (o.resources.close fd).2 }
  | .error (.err _) => ⟨[], .ok (), s⟩
  | .error stop => ⟨[], .error stop, s⟩

/-! ### Chunks -/

variable {bytes : List UInt8} {s t text : Str}

/-- All that is printed for some bytes. -/
def chunks : List UInt8 → Str
  | [] => []
  | b :: bytes =>
      chunkText ((b :: bytes).take CAT_BUFFER_SIZE) ++ chunks ((b :: bytes).drop CAT_BUFFER_SIZE)
termination_by bytes => bytes.length
decreasing_by
  rw [List.length_drop, List.length_cons, CAT_BUFFER_SIZE]
  omega

theorem chunks_step (h : bytes ≠ []) : chunks bytes =
    chunkText (bytes.take CAT_BUFFER_SIZE) ++ chunks (bytes.drop CAT_BUFFER_SIZE) := by
  obtain ⟨b, bytes, rfl⟩ := List.exists_cons_of_ne_nil h
  rw [chunks]

theorem byteLen_chunkText (bytes : List UInt8) : byteLen (chunkText bytes) = bytes.length := by
  rw [chunkText]
  cases h : fromUtf8 bytes with
  | some s => rw [byteLen, bytes_of_fromUtf8 h]
  | none =>
      rw [byteLen, bytes_length, List.length_map]
      intro c hc
      obtain ⟨byte, -, rfl⟩ := List.mem_map.mp hc
      simp only
      split_ifs with hprint
      · rcases hprint with hgraphic | hc | hc | hc
        · rw [isAsciiGraphic, decide_eq_true_iff] at hgraphic
          exact Nat.lt_succ_of_le (hgraphic.2.trans (by decide))
        · rw [hc]
          decide
        · rw [hc]
          decide
        · rw [hc]
          decide
      · decide

/-- The chunks of a text end between two characters. -/
def ChunkBoundaries (text : Str) : Prop :=
  ∀ i, CAT_BUFFER_SIZE * i ≤ byteLen text → IsCharBoundary text (CAT_BUFFER_SIZE * i)

/-- The first chunk of a text, and the others. -/
theorem chunkBoundaries_append (h : byteLen s = CAT_BUFFER_SIZE) :
    ChunkBoundaries (s ++ t) ↔ ChunkBoundaries t := by
  have hnext : ∀ i, CAT_BUFFER_SIZE * (i + 1) = byteLen s + CAT_BUFFER_SIZE * i := fun i => by
    rw [h, Nat.mul_succ, Nat.add_comm]
  constructor
  · intro hst i hi
    have hbound := hst (i + 1) (by rw [hnext, byteLen_append]; omega)
    rw [hnext] at hbound
    exact isCharBoundary_add.mp hbound
  · intro ht i hi
    cases i with
    | zero => exact ⟨[], s ++ t, rfl, byteLen_eq_zero.mpr rfl⟩
    | succ i =>
        rw [hnext, byteLen_append] at hi
        rw [hnext]
        exact isCharBoundary_add.mpr (ht i (by omega))

theorem chunkBoundaries_short (h : byteLen text ≤ CAT_BUFFER_SIZE) : ChunkBoundaries text := by
  intro i hi
  cases i with
  | zero => exact ⟨[], text, rfl, byteLen_eq_zero.mpr rfl⟩
  | succ i =>
      have hone : CAT_BUFFER_SIZE * (i + 1) = byteLen text := by
        rw [Nat.mul_succ] at hi ⊢
        omega
      exact ⟨text, [], (List.append_nil text).symm, hone.symm⟩

theorem chunks_short (h : byteLen text ≤ CAT_BUFFER_SIZE) : chunks text.bytes = text := by
  by_cases hnil : text = []
  · rw [hnil]
    exact chunks.eq_1
  have hne : text.bytes ≠ [] := fun he => hnil (byteLen_eq_zero.mp (congrArg List.length he))
  rw [chunks_step hne, List.take_of_length_le h, List.drop_of_length_le h, chunks.eq_1, chunkText,
    fromUtf8_bytes, List.append_nil]

/-- The bytes of a text are printed as the text when their chunks are valid. -/
theorem chunks_eq_iff (text : Str) : chunks text.bytes = text ↔ ChunkBoundaries text := by
  induction hn : text.length using Nat.strong_induction_on generalizing text with
  | _ n ih =>
      rcases le_or_gt (byteLen text) CAT_BUFFER_SIZE with hshort | hlong
      · exact iff_of_true (chunks_short hshort) (chunkBoundaries_short hshort)
      have hne : text.bytes ≠ [] := fun he => by
        have hzero : byteLen text = 0 := congrArg List.length he
        omega
      have hsplit : ∀ {s t : Str}, text = s ++ t → byteLen s = CAT_BUFFER_SIZE →
          (chunks text.bytes = text ↔ ChunkBoundaries text) := by
        intro s t htext hs
        have hbytes : text.bytes.take CAT_BUFFER_SIZE = s.bytes ∧
            text.bytes.drop CAT_BUFFER_SIZE = t.bytes := by
          rw [htext, bytes_append]
          exact ⟨List.take_left' hs, List.drop_left' hs⟩
        have hpos : 0 < s.length := List.length_pos_iff.mpr fun he => by
          rw [he] at hs
          exact absurd hs (by decide)
        have hlen : t.length < n := by
          rw [← hn, htext, List.length_append]
          omega
        rw [chunks_step hne, hbytes.1, hbytes.2, chunkText, fromUtf8_bytes, htext,
          chunkBoundaries_append hs, ← ih t.length hlen t rfl]
        exact List.append_right_inj s
      constructor
      · intro hprinted
        have hlen : byteLen (chunkText (text.bytes.take CAT_BUFFER_SIZE)) = CAT_BUFFER_SIZE := by
          rw [byteLen_chunkText]
          exact List.length_take_of_le hlong.le
        exact (hsplit (hprinted.symm.trans (chunks_step hne)) hlen).mp hprinted
      · intro hbound
        obtain ⟨s, t, htext, hs⟩ := hbound 1 (by omega)
        exact (hsplit htext hs).mpr hbound

/-! ### The loop -/

theorem dlookup_kreplace {F : Type} {fd : UInt8} {r r' : Resource F} :
    ∀ {l : List ((_ : UInt8) × Resource F)}, l.dlookup fd = some r →
      (l.kreplace fd r').dlookup fd = some r'
  | [], h => nomatch h
  | ⟨fd', r''⟩ :: l, h => by
      by_cases hfd : fd = fd'
      · subst hfd
        have hcons : (⟨fd, r''⟩ :: l : List ((_ : UInt8) × Resource F)).kreplace fd r' =
            ⟨fd, r'⟩ :: l := List.lookmap_cons_some _ _ (if_pos rfl)
        rw [hcons, List.dlookup_cons_eq]
      · have hcons : (⟨fd', r''⟩ :: l : List ((_ : UInt8) × Resource F)).kreplace fd r' =
            ⟨fd', r''⟩ :: l.kreplace fd r' := List.lookmap_cons_none _ _ (if_neg hfd)
        rw [List.dlookup_cons_ne _ _ hfd] at h
        rw [hcons, List.dlookup_cons_ne _ _ hfd]
        exact dlookup_kreplace h

theorem lookup_open (s : ResourceSet File) (r : Resource File) :
    (s.open r).2.handles.lookup (s.open r).1 = some r := by
  rw [ResourceSet.open]
  split
  · exact AList.lookup_insert _
  · exact AList.lookup_insert _

variable {v : Fat16Impl} {entry : DirEntry} {clusters : List ℕ} {resources : ResourceSet File}
  {fd : UInt8} {f : File} {buffer : List UInt8} {printed : Str}

theorem read_file (h : f.handle.Serves f.entry clusters)
    (hfd : resources.handles.lookup fd = some (.file f)) (hbuffer : buffer.length = CAT_BUFFER_SIZE) :
    ∃ f' n, n = min CAT_BUFFER_SIZE (f.entry.size - f.offset) ∧ f'.handle = f.handle ∧
      f'.entry = f.entry ∧ f'.offset = f.offset + n ∧
      (resources.read fd buffer []).result = .ok (n : ℤ) ∧
      (resources.read fd buffer []).resource.handles.lookup fd = some (.file f') ∧
      (resources.read fd buffer []).buf.length = CAT_BUFFER_SIZE ∧
      (resources.read fd buffer []).buf.take n =
        ((f.handle.content f.entry clusters).drop f.offset).take n := by
  obtain ⟨cur, fetched, n, hn, hread⟩ := File.read_eq h buffer
  rw [hbuffer] at hn
  have hdrop : ((f.handle.content f.entry clusters).drop f.offset).length =
      f.entry.size - f.offset := by
    rw [List.length_drop, h.length_content]
  have hresources : resources.read fd buffer [] = ⟨.ok n,
      ⟨resources.handles.replace fd (.file { f with offset := f.offset + n, currentCluster := cur }),
        resources.recycled⟩,
      Windows.filled ((f.handle.content f.entry clusters).drop f.offset) n buffer, []⟩ := by
    simp only [ResourceSet.read, hfd, Resource.read, hread]
  rw [hresources]
  refine ⟨{ f with offset := f.offset + n, currentCluster := cur }, n, hn, rfl, rfl, rfl, rfl,
    dlookup_kreplace hfd, ?_, ?_⟩
  · rw [← hbuffer]
    exact Windows.length_filled (by omega) (by omega)
  · rw [Windows.filled]
    exact List.take_left' (List.length_take_of_le (by omega))

theorem catLoop_end {fuel : ℕ} (h : f.handle.Serves f.entry clusters)
    (hfd : resources.handles.lookup fd = some (.file f)) (hbuffer : buffer.length = CAT_BUFFER_SIZE)
    (hend : f.entry.size ≤ f.offset) :
    (catLoop fd (fuel + 1) resources buffer printed).printed = printed ∧
      (catLoop fd (fuel + 1) resources buffer printed).result = .ok () := by
  obtain ⟨f', n, hn, -, -, -, hresult, -⟩ := read_file h hfd hbuffer
  obtain rfl : n = 0 := by rw [hn]; omega
  rw [catLoop]
  simp only [hresult]
  exact ⟨rfl, rfl⟩

/-- The loop prints the chunks of the content from the offset on. -/
theorem catLoop_eq {fuel : ℕ} (printed : Str) (h : f.handle.Serves f.entry clusters)
    (hfd : resources.handles.lookup fd = some (.file f)) (hbuffer : buffer.length = CAT_BUFFER_SIZE)
    (hfuel : f.entry.size - f.offset ≤ CAT_BUFFER_SIZE * fuel) :
    (catLoop fd (fuel + 1) resources buffer printed).printed =
        printed ++ chunks ((f.handle.content f.entry clusters).drop f.offset) ∧
      (catLoop fd (fuel + 1) resources buffer printed).result = .ok () := by
  induction fuel generalizing f resources buffer printed with
  | zero =>
      have hend : f.entry.size ≤ f.offset := by omega
      rw [List.drop_of_length_le (h.length_content.trans_le hend), chunks.eq_1, List.append_nil]
      exact catLoop_end h hfd hbuffer hend
  | succ fuel ih =>
      rcases le_or_gt f.entry.size f.offset with hend | hmore
      · rw [List.drop_of_length_le (h.length_content.trans_le hend), chunks.eq_1, List.append_nil]
        exact catLoop_end h hfd hbuffer hend
      obtain ⟨f', n, hn, hhandle, hentry, hoffset, hresult, hfd', hbuffer', htake⟩ :=
        read_file h hfd hbuffer
      have hpos : 0 < n := by
        rw [hn, CAT_BUFFER_SIZE]
        omega
      have hne : (f.handle.content f.entry clusters).drop f.offset ≠ [] := fun he => by
        have hlen := congrArg List.length he
        rw [List.length_drop, h.length_content, List.length_nil] at hlen
        omega
      have hchunk : ((f.handle.content f.entry clusters).drop f.offset).take n =
          ((f.handle.content f.entry clusters).drop f.offset).take CAT_BUFFER_SIZE := by
        rw [hn, List.take_eq_take_iff, List.length_drop, h.length_content]
        omega
      have hrest : ((f.handle.content f.entry clusters).drop f.offset).drop CAT_BUFFER_SIZE =
          (f'.handle.content f'.entry clusters).drop f'.offset := by
        rw [hhandle, hentry, hoffset, List.drop_drop]
        rcases le_or_gt CAT_BUFFER_SIZE (f.entry.size - f.offset) with hfull | hlast
        · rw [hn, min_eq_left hfull]
        · rw [List.drop_of_length_le, List.drop_of_length_le]
          · rw [h.length_content]
            omega
          · rw [h.length_content]
            omega
      have hfuel' : f'.entry.size - f'.offset ≤ CAT_BUFFER_SIZE * fuel := by
        rw [Nat.mul_succ] at hfuel
        rw [hentry, hoffset]
        omega
      obtain ⟨hprinted, hok⟩ := ih (f := f') _ (by rw [hhandle, hentry]; exact h) hfd' hbuffer' hfuel'
      rw [catLoop]
      simp only [hresult, if_neg (show ¬ (n : ℤ) < 0 by omega),
        if_neg (show ¬ (n : ℤ) = 0 by omega), Int.toNat_natCast]
      refine ⟨?_, hok⟩
      rw [hprinted, htake, hchunk, List.append_assoc, ← hrest, ← chunks_step hne]

theorem catFile_eq {opened : Fs (Metadata × File)} {metadata : Metadata}
    (hopen : opened = .ok (metadata, File.new v entry)) (h : v.Serves entry clusters) {fuel : ℕ}
    (hfuel : entry.size / CAT_BUFFER_SIZE + 1 < fuel) (resources : ResourceSet File) :
    (catFile fuel opened resources).result = .ok () ∧
      (catFile fuel opened resources).printed = chunks (v.content entry clusters) := by
  obtain ⟨fuel, rfl⟩ := Nat.exists_eq_add_of_lt (Nat.zero_lt_of_lt hfuel)
  have hrounds : entry.size - 0 ≤ CAT_BUFFER_SIZE * (0 + fuel) := by
    have := Nat.lt_mul_div_succ entry.size (show 0 < CAT_BUFFER_SIZE by decide)
    have hle : CAT_BUFFER_SIZE * (entry.size / CAT_BUFFER_SIZE + 1) ≤ CAT_BUFFER_SIZE * (0 + fuel) :=
      Nat.mul_le_mul_left _ (by omega)
    omega
  obtain ⟨hprinted, hok⟩ := catLoop_eq (f := File.new v entry) [] h
    (lookup_open resources (.file (File.new v entry)))
    (List.length_replicate (n := CAT_BUFFER_SIZE) (a := 0)) hrounds
  rw [hopen]
  exact ⟨hok, hprinted⟩

/-- **The `cat` command.**  A file with a text is opened; then the text is printed exactly when no
character goes over the end of a chunk. -/
theorem cat_prints_iff {upper : Char → Str} {depth : ℕ} {path : Str} {metadata : Metadata}
    (hopen : v.openFile upper depth path = .ok (metadata, File.new v entry))
    (h : v.Serves entry clusters) (htext : v.content entry clusters = text.bytes) {fuel : ℕ}
    (hfuel : entry.size / CAT_BUFFER_SIZE + 1 < fuel) (resources : ResourceSet File) :
    (catFile fuel (v.openFile upper depth path) resources).result = .ok () ∧
      ((catFile fuel (v.openFile upper depth path) resources).printed = text ↔
        ChunkBoundaries text) := by
  obtain ⟨hok, hprinted⟩ := catFile_eq hopen h hfuel resources
  rw [hprinted, htext]
  exact ⟨hok, chunks_eq_iff text⟩

/-! ### A character over the end of a chunk -/

/-- 511 letters and an accented one. -/
def accentText : Str := List.replicate 511 'a' ++ ['é']

/-- The text in the clusters 2 and 3 of the small volume, under the name `A`. -/
def accentVolume : Fat16Impl := { smallVolume with inner :=
  { readBlock := fun
      | 2 => .ok (((blockOf (slotBytes (65 :: List.replicate 10 32) 0x20 2 0)).set 28 1).set 29 2)
      | 3 => .ok (blockOf (List.replicate 511 0x61 ++ [0xC3]))
      | 4 => .ok (blockOf [0xA9])
      | sector => smallDisk.readBlock sector } }

def accentFile : DirEntry := { smallFile with size := 513 }

theorem accentVolume_open : accentVolume.openFile (fun c => [c]) 1 ['A'] =
    .ok (⟨['A'], .file, 513, some .epoch, some .epoch, some .epoch⟩, File.new accentVolume accentFile) := by
  have hfind : accentVolume.findPath (fun c => [c]) 1 ['A'] = .ok (some accentFile) := by
    decide +kernel
  have hmetadata : accentFile.toMetadata .file =
      .ok ⟨['A'], .file, 513, some .epoch, some .epoch, some .epoch⟩ := by decide +kernel
  rw [Fat16Impl.openFile, hfind]
  simp only [bind, Except.bind, hmetadata]
  rfl

theorem accentVolume_serves : accentVolume.Serves accentFile [2, 3] := by
  refine ⟨by decide +kernel, by decide +kernel, ⟨fun c hc => ?_, fun c hc => ?_, ?_⟩,
    by decide +kernel, fun c hc s hs => ?_⟩
  · cases hc
    rfl
  · unfold Fat16Impl.IsData
    rcases List.mem_pair.mp hc with rfl | rfl <;> decide
  · have hlink : accentVolume.getNextCluster 2 = .ok (some 3) := by decide +kernel
    exact List.isChain_pair.mpr hlink
  · have hsector : accentVolume.clusterSectors ⟨2⟩ = [3] ∧
        accentVolume.clusterSectors ⟨3⟩ = [4] := by decide +kernel
    rcases List.mem_pair.mp hc with rfl | rfl
    · rw [hsector.1, List.mem_singleton] at hs
      subst hs
      exact ⟨_, rfl⟩
    · rw [hsector.2, List.mem_singleton] at hs
      subst hs
      exact ⟨_, rfl⟩

theorem accentVolume_content : accentVolume.content accentFile [2, 3] = accentText.bytes := by
  decide +kernel

/-- The file is opened, and printed if its character does not go over the end of a chunk. -/
theorem cat_prints_iff_example :
    (catFile 3 (accentVolume.openFile (fun c => [c]) 1 ['A']) .default).printed = accentText ↔
      ChunkBoundaries accentText :=
  (cat_prints_iff accentVolume_open accentVolume_serves accentVolume_content (by decide) _).2

/-- It does. -/
theorem cat_splits_character : accentVolume.content accentFile [2, 3] = accentText.bytes ∧
    (catFile 3 (accentVolume.openFile (fun c => [c]) 1 ['A']) .default).printed ≠ accentText := by
  refine ⟨accentVolume_content, ?_⟩
  rw [(catFile_eq accentVolume_open accentVolume_serves (by decide) _).2, accentVolume_content, Ne,
    chunks_eq_iff]
  intro h
  have hlen : byteLen (List.replicate 511 'a') = 511 := by decide +kernel
  have hbound := h 1 (by decide +kernel)
  rw [accentText, show CAT_BUFFER_SIZE * 1 = byteLen (List.replicate 511 'a') + 1 by rw [hlen]; rfl]
    at hbound
  exact not_isCharBoundary _ [] (by decide) (by decide) hbound

end Ysos.Sh
