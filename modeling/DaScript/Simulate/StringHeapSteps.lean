import DaScript.Misc.LinearChunksSteps
import DaScript.Simulate.HeapRuns
import DaScript.Simulate.StringHeap

/-!
# Simulate/StringHeapSteps — what keeps the intern map right

An intern map is right when every entry is a string that is held, with the bytes it was entered by,
and no two entries stand for one text (`StringSet.Right`).  An entry may come in for a held string
(`Right.insert`), and a string may go once its entry is erased (`Right.erase`): that finds the entry
of the string because no other is taken for it.

The two heaps keep track of the strings that are held (`LawfulHeap`); over such a heap, each of the
functions a program calls is settled here.
-/

open Function

namespace DaScript

open Bitmap Block

/-! ## The map -/

namespace StringSet

/-- The two entries are taken for one another. -/
def Clash (a b : InternEntry) : Prop :=
  hashBlock64 a.text = hashBlock64 b.text ∧
    (a.ptr = b.ptr ∨ a.length = b.length ∧ beforeZero a.text = beforeZero b.text)

/-- The string an entry points to, as a block. -/
def block (e : InternEntry) : Block := ⟨e.ptr, e.length + 1⟩

/-- **An intern map in order**, while the strings `L` are held. -/
structure Right (mem : Memory) (L : List Block) (set : StringSet) : Prop where
  live : ∀ e ∈ set, block e ∈ L
  short : ∀ e ∈ set, e.length ≤ uint32Max
  text : ∀ e ∈ set, bytes mem e.ptr e.length = e.text
  distinct : set.Pairwise fun a b => ¬ Clash a b

variable {mem mem' : Memory} {L L' : List Block} {set : StringSet} {key : StrHashEntry}
  {e : InternEntry}

theorem Clash.refl (a : InternEntry) : Clash a a := ⟨rfl, Or.inl rfl⟩

theorem Clash.symm {a b : InternEntry} (h : Clash a b) : Clash b a :=
  ⟨h.1.symm, h.2.imp Eq.symm fun ⟨hlen, htext⟩ => ⟨hlen.symm, htext.symm⟩⟩

theorem isKey_iff (h : bytes mem e.ptr e.length = e.text) :
    isKey mem key e = true ↔ Clash e (entry mem key) := by
  rw [isKey, decide_eq_true_iff, strEq, decide_eq_true_iff, strncmp_eq_zero, h, Clash]
  refine and_congr_right fun _ => or_congr_right (and_congr_right fun hlen => ?_)
  rw [show e.length = key.length from hlen]
  rfl

theorem find_isSome_iff : (find mem set key).isSome = true ↔ ∃ e ∈ set, isKey mem key e = true := by
  rw [find, List.find?_isSome]

namespace Right

theorem nil : Right mem L [] := ⟨by simp, by simp, by simp, .nil⟩

theorem find (h : Right mem L set) (hfind : StringSet.find mem set key = some e) :
    block e ∈ L ∧ (e.ptr = key.ptr ∨ e.length = key.length ∧
      strncmp mem e.ptr key.ptr key.length = 0) := by
  have hkey := List.find?_some hfind
  rw [isKey, decide_eq_true_iff, strEq, decide_eq_true_iff] at hkey
  refine ⟨h.live e (List.mem_of_find?_eq_some hfind), hkey.2.imp_right ?_⟩
  rintro ⟨hlen, hcmp⟩
  exact ⟨hlen, hlen ▸ hcmp⟩

theorem mono (h : Right mem L set) (hL : ∀ b ∈ L, b ∈ L') : Right mem L' set :=
  ⟨fun e he => hL _ (h.live e he), h.short, h.text, h.distinct⟩

theorem congr (h : Right mem L set)
    (hmem : ∀ e ∈ set, bytes mem' e.ptr e.length = bytes mem e.ptr e.length) :
    Right mem' L set :=
  ⟨h.live, h.short, fun e he => (hmem e he).trans (h.text e he), h.distinct⟩

theorem insert (h : Right mem L set)
    (hkey : StringSet.find mem set key = none → ⟨key.ptr, key.length + 1⟩ ∈ L)
    (hshort : key.length ≤ uint32Max) : Right mem L (StringSet.insert mem set key) := by
  rw [StringSet.insert]
  split_ifs with hfound
  · exact h
  · refine ⟨?_, ?_, ?_, ?_⟩
    · exact List.forall_mem_cons.mpr ⟨hkey (Option.not_isSome_iff_eq_none.mp hfound), h.live⟩
    · exact List.forall_mem_cons.mpr ⟨hshort, h.short⟩
    · exact List.forall_mem_cons.mpr ⟨rfl, h.text⟩
    · refine List.pairwise_cons.mpr ⟨fun e he hclash => hfound ?_, h.distinct⟩
      exact find_isSome_iff.mpr ⟨e, he, (isKey_iff (h.text e he)).mpr hclash.symm⟩

theorem sublist {set' : StringSet} (h : Right mem L set) (hsub : set'.Sublist set) :
    Right mem L set' :=
  ⟨fun e he => h.live e (hsub.subset he), fun e he => h.short e (hsub.subset he),
    fun e he => h.text e (hsub.subset he), h.distinct.sublist hsub⟩

theorem drop {b : Block} (h : Right mem L set) (hb : ∀ e ∈ set, block e ≠ b) :
    Right mem (L.erase b) set :=
  ⟨fun e he => (List.mem_erase_of_ne (hb e he)).mpr (h.live e he), h.short, h.text, h.distinct⟩

theorem erase {b : Block} (h : Right mem L set) :
    Right mem (L.erase b) (StringSet.erase mem set ⟨b.ptr, b.size - 1⟩) := by
  have hsub : (StringSet.erase mem set ⟨b.ptr, b.size - 1⟩).Sublist set := List.eraseP_sublist
  refine (h.sublist hsub).drop fun e he hblock => ?_
  have hset := hsub.subset he
  -- an entry of `b` is taken for it, and then it is the one that was erased
  have hptr : e.ptr = b.ptr := congrArg Block.ptr hblock
  have hlen : e.length = b.size - 1 := by
    have : e.length + 1 = b.size := congrArg Block.size hblock
    omega
  have hentry : entry mem ⟨b.ptr, b.size - 1⟩ = e := by
    rw [← hptr, ← hlen, entry, h.text e hset]
  have hkey : isKey mem ⟨b.ptr, b.size - 1⟩ e = true :=
    (isKey_iff (h.text e hset)).mpr (hentry.symm ▸ Clash.refl e)
  obtain ⟨d, A, B, -, hd, hsplit, herase⟩ := List.exists_of_eraseP hset hkey
  have hclash : Clash d e := by
    have := (isKey_iff (h.text d (by rw [hsplit]; simp))).mp hd
    rwa [hentry] at this
  have hdist := h.distinct
  rw [hsplit, List.pairwise_append, List.pairwise_cons] at hdist
  rw [StringSet.erase, herase] at he
  rcases List.mem_append.mp he with he | he
  · exact hdist.2.2 e he d (List.mem_cons_self ..) hclash.symm
  · exact hdist.2.1.1 e he hclash

theorem insertAll {strs : List ℕ} (hstrs : ∀ p ∈ strs, ∀ n, strlen mem p = .ok n →
    ⟨p, n % 2 ^ 32 + 1⟩ ∈ L) {set' : StringSet} (h : Right mem L set)
    (hcall : StringSet.insertAll mem strs set = .ok set') : Right mem L set' := by
  induction strs generalizing set with
  | nil => exact Except.ok.inj hcall ▸ h
  | cons p strs ih =>
    obtain ⟨n, hn, hcall⟩ := bind_eq_ok.mp hcall
    obtain ⟨hp, hstrs⟩ := List.forall_mem_cons.mp hstrs
    refine ih hstrs (h.insert (fun _ => hp n hn) ?_) hcall
    have := Nat.mod_lt n (show 2 ^ 32 > 0 by decide)
    change n % 2 ^ 32 ≤ uint32Max
    rw [uint32Max]
    omega

end Right

end StringSet

/-! ## The heap below -/

/-- **A heap that keeps track** of the blocks its callers hold. -/
class LawfulHeap (σ : Type) extends HeapAllocator σ where
  /-- the callers hold these blocks -/
  Tracks : σ → List Block → Prop
  /-- what the heap holds from the system -/
  held : σ → List Block
  /-- the sizes whose rounding does not wrap, if the heap does not check for them -/
  sized : ℕ → Prop
  apart {s : σ} {L : List Block} : Tracks s L → L.Pairwise Apart
  bounds {s : σ} {L : List Block} : Tracks s L →
    ∀ b ∈ L, 0 < b.size ∧ b.ptr + b.size ≤ addressSpace
  allocate {s s' : σ} {L : List Block} {posix : Posix} {n : ℕ} {r : Option ℕ} : Tracks s L →
    Honest (held s) posix → n < 2 ^ 64 → sized n → implAllocate s posix n = .ok (r, s') →
    Tracks s' (r.elim L fun p => ⟨p, n⟩ :: L) ∧ mem s' = mem s
  free {s s' : σ} {L : List Block} {b : Block} : Tracks s L → b ∈ L →
    implFree s b.ptr b.size = .ok s' → Tracks s' (L.erase b) ∧ mem s' = mem s
  own {s s' : σ} {L : List Block} {ptr size : ℕ} {r : Bool} : Tracks s L →
    isOwnPtr s ptr size = .ok (r, s') → Tracks s' L ∧ mem s' = mem s
  dropped {s : σ} {L : List Block} : Tracks s L → Tracks (reset s) [] ∧ mem (reset s) = mem s
  written {s : σ} {L : List Block} : Tracks s L → ∀ mem', Tracks (setMem s mem') L ∧
    mem (setMem s mem') = mem'

theorem MemoryModel.Tracks.isOwnPtr {m m' : MemoryModel} {L : List Block} (T : m.Tracks L)
    {ptr size : ℕ} {r : Bool} (hcall : m.isOwnPtr ptr size = .ok (r, m')) :
    m'.Tracks L ∧ m'.mem = m.mem := by
  rw [MemoryModel.isOwnPtr] at hcall
  split_ifs at hcall
  · obtain ⟨⟨own, shoe⟩, hshoe, hcall⟩ := bind_eq_ok.mp hcall
    obtain ⟨-, rfl⟩ := Prod.mk.inj (Except.ok.inj hcall)
    have hchunks : shoe.chunks = m.shoe.chunks := by
      rw [Shoe.isOwnPtr] at hshoe
      split_ifs at hshoe
      split at hshoe
      · exact (Prod.mk.inj (Except.ok.inj hshoe)).2 ▸ rfl
      · split at hshoe
        · exact (Prod.mk.inj (Except.ok.inj hshoe)).2 ▸ rfl
        · exact (Prod.mk.inj (Except.ok.inj hshoe)).2 ▸ rfl
    exact ⟨T.congr ⟨rfl, rfl⟩ hchunks rfl, rfl⟩
  · obtain ⟨-, rfl⟩ := Prod.mk.inj (Except.ok.inj hcall)
    exact ⟨T, rfl⟩

/-- **The persistent heap keeps track.** -/
instance : LawfulHeap PersistentHeap where
  Tracks h L := h.model.Tracks L
  held h := h.model.held
  sized _ := True
  apart T := T.sound.apart
  bounds T b hb := MemoryModel.Tracks.bounds T hb
  allocate {s s' L posix n r} T hp hn _ hcall := by
    change s.implAllocate posix n = _ at hcall
    rw [PersistentHeap.implAllocate] at hcall
    split_ifs at hcall
    · obtain ⟨⟨ptr, model⟩, hm, hcall⟩ := bind_eq_ok.mp hcall
      obtain ⟨rfl, rfl⟩ := Prod.mk.inj (Except.ok.inj hcall)
      rcases Nat.eq_zero_or_pos n with rfl | hpos
      · obtain ⟨rfl, rfl⟩ := Prod.mk.inj (Except.ok.inj hm)
        exact ⟨T, rfl⟩
      · rcases MemoryModel.Tracks.allocate T hp hpos hn with
          ⟨e, -, he⟩ | ⟨p, m, hm', T', -, hmem, -⟩
        · rw [hm] at he
          cases he
        · obtain ⟨rfl, rfl⟩ := Prod.mk.inj (Except.ok.inj (hm.symm.trans hm'))
          exact ⟨T', hmem⟩
    · obtain ⟨rfl, rfl⟩ := Prod.mk.inj (Except.ok.inj hcall)
      exact ⟨T, rfl⟩
  free {s s' L b} T hb hcall := by
    obtain ⟨⟨r, model⟩, hm, hcall⟩ := bind_eq_ok.mp hcall
    obtain rfl := Except.ok.inj hcall
    obtain ⟨m, hm', T', -, hmem, -⟩ := MemoryModel.Tracks.free T hb
    obtain ⟨-, rfl⟩ := Prod.mk.inj (Except.ok.inj (hm.symm.trans hm'))
    exact ⟨T', hmem⟩
  own T hcall := by
    obtain ⟨⟨r, model⟩, hm, hcall⟩ := bind_eq_ok.mp hcall
    obtain ⟨-, rfl⟩ := Prod.mk.inj (Except.ok.inj hcall)
    exact MemoryModel.Tracks.isOwnPtr T hm
  dropped T := ⟨MemoryModel.Tracks.reset T, rfl⟩
  written T _ := ⟨MemoryModel.Tracks.congr T ⟨rfl, rfl⟩ rfl rfl, rfl⟩

/-- **The linear heap keeps track.** -/
instance : LawfulHeap LinearHeap where
  Tracks h L := h.model.Tracks L ∧ h.model.alignMask = 3
  held h := h.model.held
  sized n := n + 3 < 2 ^ 64
  apart T := T.1.apart.imp_of_mem fun hb hc h => h.mono (T.1.within hb) (T.1.within hc)
  bounds T b hb := T.1.bounds hb
  allocate {s s' L posix n r} T hp hn hsized hcall := by
    change s.implAllocate posix n = _ at hcall
    rw [LinearHeap.implAllocate] at hcall
    split_ifs at hcall
    · obtain ⟨⟨ptr, model⟩, hm, hcall⟩ := bind_eq_ok.mp hcall
      obtain ⟨rfl, rfl⟩ := Prod.mk.inj (Except.ok.inj hcall)
      rcases Nat.eq_zero_or_pos n with rfl | hpos
      · obtain ⟨rfl, rfl⟩ := Prod.mk.inj (Except.ok.inj hm)
        exact ⟨T, rfl⟩
      · obtain ⟨p, rfl, T', hmem, hmask⟩ :=
          LinearChunks.Tracks.allocate T.1 hp hpos (T.2.symm ▸ hsized) hm
        exact ⟨⟨T', hmask.trans T.2⟩, hmem⟩
    · obtain ⟨rfl, rfl⟩ := Prod.mk.inj (Except.ok.inj hcall)
      exact ⟨T, rfl⟩
  free {s s' L b} T hb hcall := by
    obtain ⟨model, hm, hcall⟩ := bind_eq_ok.mp hcall
    obtain rfl := Except.ok.inj hcall
    obtain ⟨T', hmem, hmask⟩ := LinearChunks.Tracks.free T.1 hb hm
    exact ⟨⟨T', hmask.trans T.2⟩, hmem⟩
  own T hcall := by
    obtain ⟨-, rfl⟩ := Prod.mk.inj (Except.ok.inj hcall)
    exact ⟨T, rfl⟩
  dropped T := by
    obtain ⟨T', hmem, hmask⟩ := LinearChunks.Tracks.reset T.1
    exact ⟨⟨T', hmask.trans T.2⟩, hmem⟩
  written T _ := ⟨⟨LinearChunks.Tracks.congr T.1 rfl rfl rfl, T.2⟩, rfl⟩

end DaScript
