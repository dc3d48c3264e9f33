import WgslKernel.Builder.Monad
import WgslKernel.Task

/-!
# Demonstration kernels

Complete kernels, each with the sizes of its argument and return blocks and the root buffers a
runtime has to allocate for it.
-/

namespace WgslKernel

/-- A root buffer that a kernel reads or writes. -/
structure BufferSpec where
  id : Nat
  sizeWords : Nat
  deriving DecidableEq, Repr

/-- The buffer that holds a field, as large as a word can say. -/
def BufferSpec.ofField (f : Field) : BufferSpec :=
  { id := f.buffer
    sizeWords :=
      match f.sizeWords with
      | some n => min (n + f.offsetWords) (wordLimit - 1)
      | none => wordLimit - 1 }

/-- A kernel that can be built by name. -/
structure Demo where
  name : String
  description : String
  build : Build Unit
  signature : Signature := {}
  buffers : List BufferSpec := []
  /-- Words passed as arguments. -/
  args : List Nat := []

namespace Demo

open Build

/-! ## `fill` -/

/-- A row of integers. -/
def line : Field := { id := 0, shape := [1000], dtype := .i32 }

/-- A parallel loop that stores its index. -/
def fill : Demo where
  name := "fill"
  description := "x[i] = i over a 1-D i32 field"
  build := do
    let n ← constI32 1000
    let loop ← create (.rangeFor (.value n) false)
    inside .rangeFor loop do
      let i ← create (.loopIndex loop)
      let p ← create (.globalPtr line [i] 0)
      perform (.globalStore p i)
  buffers := [.ofField line]

/-! ## `field2d` -/

/-- A field of two dimensions. -/
def grid : Field := { id := 0, shape := [16, 8], dtype := .f32 }

/-- A parallel loop over two dimensions. -/
def field2d : Demo where
  name := "field2d"
  description := "x[i, j] = i * 10 + j over a 16x8 f32 field"
  build := do
    let loop ← create (.rangeFor (.field grid) false)
    inside .rangeFor loop do
      let index ← create (.loopIndex loop)
      let columns ← constI32 8
      let i ← binary .floorDiv index columns
      let j ← binary .mod index columns
      let ten ← constI32 10
      let row ← binary .mul i ten
      let v ← binary .add row j
      let v ← unary .castF32Value v
      let p ← create (.globalPtr grid [i, j] 0)
      perform (.globalStore p v)
  buffers := [.ofField grid]

/-! ## `local_var` -/

/-- A serial loop with a local variable. -/
def localVar : Demo where
  name := "local_var"
  description := "serial sum of 0..n into a local variable, returned to the host"
  build := do
    let n ← create (.argLoad .i32 0)
    let sum ← create (.localVar .i32)
    let base ← constI32 0
    perform (.localStore sum base)
    let loop ← create (.rangeFor (.value n) true)
    inside .rangeFor loop do
      let i ← create (.loopIndex loop)
      let acc ← create (.localLoad sum)
      let next ← binary .add acc i
      perform (.localStore sum next)
    let total ← create (.localLoad sum)
    perform (.ret [total])
  signature := ⟨4, 4⟩
  args := [100]

/-! ## `random` -/

/-- A row of floats. -/
def samples : Field := { id := 0, shape := [4096], dtype := .f32 }

/-- Random numbers and an atomic counter. -/
def random : Demo where
  name := "random"
  description := "uniform random floats plus an atomic count of values below 0.5"
  build := do
    let counter ← create (.temporary .i32 0)
    let base ← constI32 0
    perform (.temporaryStore counter base)
    let loop ← create (.rangeFor (.field samples) false)
    inside .rangeFor loop do
      let i ← create (.loopIndex loop)
      let r ← create (.rand .f32)
      let p ← create (.globalPtr samples [i] 0)
      perform (.globalStore p r)
      -- 0.5
      let half ← constF32 0x3f000000
      let below ← binary .cmpLt r half
      let counter ← create (.temporary .i32 0)
      perform (.atomic .add counter below)
    let counter ← create (.temporary .i32 0)
    let count ← create (.temporaryLoad counter)
    perform (.ret [count])
  signature := ⟨0, 4⟩
  buffers := [.ofField samples]

/-! ## `fractal` -/

/-- A picture. -/
def pixels : Field := { id := 0, shape := [64, 32], dtype := .f32 }

/-- One step of a point, which ends when it has escaped or was tried often enough. -/
def fractalStep (zr zi iters cRe cIm : StmtId) : Build Unit := do
  let x ← create (.localLoad zr)
  let y ← create (.localLoad zi)
  let k ← create (.localLoad iters)
  let xx ← binary .mul x x
  let yy ← binary .mul y y
  let norm ← binary .add xx yy
  -- 4.0
  let four ← constF32 0x40800000
  let escaped ← binary .cmpGe norm four
  let limit ← constI32 50
  let exhausted ← binary .cmpGe k limit
  let finished ← binary .logicalOr escaped exhausted
  let branch ← create (.branch finished)
  inside (.branch true) branch (perform .exitLoop)
  let re ← binary .sub xx yy
  let re ← binary .add re cRe
  let xy ← binary .mul x y
  -- 2.0
  let two ← constF32 0x40000000
  let im ← binary .mul xy two
  let im ← binary .add im cIm
  perform (.localStore zr re)
  perform (.localStore zi im)
  let step ← constI32 1
  let k ← binary .add k step
  perform (.localStore iters k)

/-- A loop in a loop, with an exit. -/
def fractal : Demo where
  name := "fractal"
  description := "julia set escape times over a 64x32 f32 field"
  build := do
    let loop ← create (.rangeFor (.field pixels) false)
    inside .rangeFor loop do
      let index ← create (.loopIndex loop)
      let n ← constI32 32
      let i ← binary .floorDiv index n
      let j ← binary .mod index n
      -- c = (-0.8, 0.2 cos t)
      let t ← create (.argLoad .f32 0)
      let cosT ← unary .cos t
      let scale ← constF32 0x3e4ccccd
      let cIm ← binary .mul cosT scale
      let cRe ← constF32 0xbf4ccccd
      -- z = (i / n - 1, j / n - 0.5) * 2, with n = 32.0
      let size ← constF32 0x42000000
      let fi ← unary .castF32Value i
      let fj ← unary .castF32Value j
      let two ← constF32 0x40000000
      let one ← constF32 0x3f800000
      let half ← constF32 0x3f000000
      let re ← binary .trueDiv fi size
      let re ← binary .sub re one
      let re ← binary .mul re two
      let im ← binary .trueDiv fj size
      let im ← binary .sub im half
      let im ← binary .mul im two
      let zr ← create (.localVar .f32)
      let zi ← create (.localVar .f32)
      let iters ← create (.localVar .i32)
      perform (.localStore zr re)
      perform (.localStore zi im)
      let base ← constI32 0
      perform (.localStore iters base)
      let repeated ← create .whileTrue
      inside .whileTrue repeated (fractalStep zr zi iters cRe cIm)
      let k ← create (.localLoad iters)
      let k ← unary .castF32Value k
      -- 0.02, one over the iteration limit
      let perStep ← constF32 0x3ca3d70a
      let shade ← binary .mul k perStep
      let one ← constF32 0x3f800000
      let v ← binary .sub one shade
      let p ← create (.globalPtr pixels [i, j] 0)
      perform (.globalStore p v)
  signature := ⟨4, 0⟩
  buffers := [.ofField pixels]
  args := [0]

/-! ## `graphics` -/

/-- The corners of a triangle. -/
def vertices : Field := { id := 0, shape := [3], dtype := .f32, components := 2 }

/-- Write the corners of a triangle, one per invocation. -/
def trianglePass : Build Unit := do
  let n ← constI32 3
  let loop ← create (.rangeFor (.value n) false)
  inside .rangeFor loop do
    let i ← create (.loopIndex loop)
    let fi ← unary .castF32Value i
    -- 2.094395, a third of a turn
    let turn ← constF32 0x40060a91
    let angle ← binary .mul fi turn
    let x ← unary .sin angle
    let y ← unary .cos angle
    -- 0.75
    let scale ← constF32 0x3f400000
    let x ← binary .mul x scale
    let y ← binary .mul y scale
    let px ← create (.globalPtr vertices [i] 0)
    perform (.globalStore px x)
    let py ← create (.globalPtr vertices [i] 1)
    perform (.globalStore py y)

/-- Place the corners, and pass on half of each corner's number. -/
def vertexPass : Build Unit := do
  let loop ← create .vertexFor
  inside .vertexFor loop do
    let vertex ← create (.builtinInput .vertexIndex)
    let three ← constI32 3
    let i ← binary .mod vertex three
    let px ← create (.globalPtr vertices [i] 0)
    let x ← create (.globalLoad px)
    let py ← create (.globalPtr vertices [i] 1)
    let y ← create (.globalLoad py)
    let z ← constF32 0
    let w ← constF32 0x3f800000
    perform (.positionOutput [x, y, z, w])
    let fi ← unary .castF32Value i
    let half ← constF32 0x3f000000
    let t ← binary .mul fi half
    perform (.vertexOutput t 0)

/-- Colour the triangle, with a tint from its first corner. -/
def fragmentPass : Build Unit := do
  let loop ← create .fragmentFor
  inside .fragmentFor loop do
    let t ← create (.fragmentInput .f32 0)
    let base ← constI32 0
    let px ← create (.globalPtr vertices [base] 0)
    let tint ← create (.globalLoad px)
    let tint ← unary .abs tint
    let one ← constF32 0x3f800000
    let inverse ← binary .sub one t
    perform (.colorOutput 0 [t, tint, inverse, one])

/-- A compute pass and a pair of graphics stages. -/
def graphics : Demo where
  name := "graphics"
  description := "compute pass writing a triangle, drawn by a vertex/fragment pair"
  build := do
    trianglePass
    vertexPass
    fragmentPass
  buffers := [.ofField vertices]

/-! ## All of them -/

/-- Every demo. -/
def all : List Demo := [fill, field2d, localVar, random, fractal, graphics]

/-- The demo of this name. -/
def find? (name : String) : Option Demo := all.find? fun d => d.name == name

/-- The module of a demonstration. -/
def module (d : Demo) : Except Fault Module := d.build.module

end Demo

end WgslKernel
