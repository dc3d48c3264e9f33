/-!
# Textures

What a statement records about a texture: its identity, how many coordinates address a texel,
and its texel format.
-/

namespace WgslKernel

/-- The dimensions of a texture. -/
inductive TextureDim where
  | d2
  | d3
  | cube
  deriving DecidableEq, Repr

namespace TextureDim

/-- Number of coordinates addressing one texel. -/
def coordCount : TextureDim → Nat
  | d2 => 2
  | d3 | cube => 3

/-- Ending of the shader's texture type names. -/
def suffix : TextureDim → String
  | d2 => "2d"
  | d3 => "3d"
  | cube => "cube"

/-- Name used in messages. -/
def label : TextureDim → String
  | d2 => "D2"
  | d3 => "D3"
  | cube => "Cube"

end TextureDim

/-- The texel formats of a texture. -/
inductive TextureFormat where
  | rgba8Unorm
  | rgba16Float
  | rgba32Float
  | depth32Float
  deriving DecidableEq, Repr

namespace TextureFormat

/-- The format has a depth only. -/
def isDepth : TextureFormat → Bool
  | depth32Float => true
  | _ => false

/-- Texel format spelling in a storage-texture declaration; depth textures have none. -/
def storageName : TextureFormat → Option String
  | rgba8Unorm => some "rgba8unorm"
  | rgba16Float => some "rgba16float"
  | rgba32Float => some "rgba32float"
  | depth32Float => none

/-- Name used in descriptions. -/
def label : TextureFormat → String
  | rgba8Unorm => "Rgba8Unorm"
  | rgba16Float => "Rgba16Float"
  | rgba32Float => "Rgba32Float"
  | depth32Float => "Depth32Float"

end TextureFormat

/-- A texture as a statement refers to it. -/
structure Texture where
  id : Nat
  dim : TextureDim
  format : TextureFormat
  deriving DecidableEq, Repr

end WgslKernel
